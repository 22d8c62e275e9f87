import LoopNest.C.Printer
import LoopNest.Proofs.Acceptance
import LoopNest.Proofs.Composition
import LoopNest.Proofs.UnrollChecks

/-!
# The loops of C

The header of a loop counts: a counter starts at the first value, is compared with a bound before
every round, and moves on after it. The bound is an expression of its own, folded, and which way the
comparison and the move go hangs on the sign of the step. What the header says is run here, with the
bound found anew before every round.

* `C.Comparison`, `C.Move`, `C.Counting`: what a header says, and its text;
* `C.Counting.Rounds`, `C.Counting.Visits`: the values of the counter, round by round;
* `Interpretation.Counts`: an expression stands for a whole number;
* **`C.Loop.header_eq_text`**: the header of a loop is the text of its counting;
* **`Interpretation.Counts.bound`**: the value of the bound;
* **`loop_visits_range`**: the counter runs through the points of the range.
-/

namespace LoopNest

/-! ## What a header says -/

namespace C

/-- The comparisons of a counter with a bound. -/
inductive Comparison where
  | less
  | greater
deriving DecidableEq

namespace Comparison

/-- The sign of a comparison. -/
def sign : Comparison → String
  | less => "<"
  | greater => ">"

/-- The comparison holds of a counter and a bound. -/
def holds : Comparison → Int → Int → Bool
  | less, x, y => x < y
  | greater, x, y => y < x

end Comparison

/-- The ways to move a counter on. -/
inductive Move where
  | increment
  | decrement
  | raise (n : Nat)
  | lower (n : Nat)
deriving DecidableEq

namespace Move

/-- The text of a move. -/
def text (counter : String) : Move → String
  | increment => "++" ++ counter
  | decrement => "--" ++ counter
  | raise n => counter ++ " += " ++ toString n
  | lower n => counter ++ " -= " ++ toString n

/-- The counter after a move. -/
def apply : Move → Int → Int
  | increment, x => x + 1
  | decrement, x => x - 1
  | raise n, x => x + n
  | lower n, x => x - n

end Move

/-- What the header of a loop says: where the counter starts, which test it has to pass before every
round, and how it moves on. -/
structure Counting where
  var : Var
  first : Expr
  test : Comparison
  bound : Expr
  move : Move
deriving DecidableEq

/-- The text of a header. -/
def Counting.text (target : Target) (names : Var → String) (c : Counting) : String :=
  "for (" ++ target.indexType ++ " " ++ names c.var ++ " = " ++ c.first.textC target names ++
    "; " ++ names c.var ++ " " ++ c.test.sign ++ " " ++ c.bound.textC target names ++ "; " ++
    c.move.text (names c.var) ++ ") \x7b"

namespace Loop

/-- The test of a loop. -/
def test (l : Loop) : Comparison := if 0 < l.step then .less else .greater

/-- The move of a loop. -/
def move (l : Loop) : Move :=
  if l.step = 1 then .increment
  else if l.step = -1 then .decrement
  else if 0 < l.step then .raise l.step.toInt.toNat
  else .lower l.step.toInt.natAbs

/-- What the header of a loop says. -/
def counting (l : Loop) : Counting := ⟨l.var, l.first, l.test, l.bound, l.move⟩

theorem sign_test (l : Loop) : l.test.sign = l.comparison := by
  unfold comparison test
  split_ifs <;> rfl

theorem text_move (l : Loop) (counter : String) : l.move.text counter = l.advance counter := by
  unfold advance move
  split_ifs with hone hneg hpos
  · rfl
  · rfl
  · have hstep : ((l.step.toInt.toNat : Nat) : Int) = l.step.toInt :=
      Int.toNat_of_nonneg (Word.zero_lt_iff.1 hpos).le
    rw [Move.text, Word.text, ← hstep]
    rfl
  · rfl

/-- **The header of a loop is the text of its counting.** -/
theorem header_eq_text (target : Target) (names : Var → String) (l : Loop) :
    l.header target names = l.counting.text target names := by
  unfold header Counting.text
  dsimp only [counting]
  rw [sign_test, text_move]

/-- The counter moves on by the step. -/
theorem apply_move (l : Loop) (x : Int) : l.move.apply x = x + l.step.toInt := by
  unfold move
  split_ifs with hone hneg hpos
  · rw [hone]
    rfl
  · rw [hneg]
    rfl
  · rw [Move.apply, Int.toNat_of_nonneg (Word.zero_lt_iff.1 hpos).le]
  · have hle : l.step.toInt ≤ 0 := not_lt.1 (mt Word.zero_lt_iff.2 hpos)
    rw [Move.apply]
    omega

/-- The test passes the points before the bound. -/
theorem holds_test {l : Loop} (hl : l.step ≠ 0) (b n k : Int) :
    l.test.holds (b + k * l.step.toInt) (b + n * l.step.toInt) = decide (k < n) := by
  unfold test
  split_ifs with hpos
  · have hs := Word.zero_lt_iff.1 hpos
    rw [Comparison.holds, decide_eq_decide, add_lt_add_iff_left, mul_lt_mul_iff_left₀ hs]
  · have hs : l.step.toInt < 0 :=
      lt_of_le_of_ne (not_lt.1 (mt Word.zero_lt_iff.2 hpos)) (Word.toInt_ne_zero hl)
    rw [Comparison.holds, decide_eq_decide, add_lt_add_iff_left, mul_lt_mul_right_of_neg hs]

end Loop

end C

/-! ## The value of the bound -/

namespace Interpretation

variable {F : Type} {I : Interpretation F} {a b e : Expr} {m n : Int}

variable (I) in
/-- The expression has a value that stands for a whole number. -/
def Counts (e : Expr) (n : Int) : Prop := ∃ x, I.value e = some x ∧ x.whole? = some n

theorem counts_literal (w : Word) : I.Counts (.int w) w.toInt := ⟨_, rfl, rfl⟩

theorem Counts.unique (hm : I.Counts e m) (hn : I.Counts e n) : m = n := by
  obtain ⟨x, hx, hm⟩ := hm
  obtain ⟨y, hy, hn⟩ := hn
  obtain rfl := Option.some.inj (hx.symm.trans hy)
  exact Option.some.inj (hm.symm.trans hn)

theorem Counts.fold (h : I.Counts e n) : I.Counts e.fold n := by
  obtain ⟨x, hx, hn⟩ := h
  exact ⟨x, value_fold hx, hn⟩

theorem Counts.binary {op : Operator} {k : Int} (hop : op.onInts m n = some (.int k : Value F))
    (ha : I.Counts a m) (hb : I.Counts b n) : I.Counts (.binary op a b) k := by
  obtain ⟨x, hx, hm⟩ := ha
  obtain ⟨y, hy, hn⟩ := hb
  exact ⟨.int k, value_binary hx hy (by rw [Machine.apply_of_whole _ hm hn, hop]), rfl⟩

/-- **The value of the bound**, whatever folding has made of it. -/
theorem Counts.bound {r : Range} (hfirst : I.Counts r.first m) (hextent : I.Counts r.extent n)
    (step : Word) : I.Counts (r.bound step) (m + n * step.toInt) :=
  (Counts.binary rfl hfirst (Counts.binary rfl hextent (counts_literal step))).fold

end Interpretation

/-! ## Round by round -/

namespace C.Counting

variable {F : Type} {I : Nat → Interpretation F} {c : Counting}

/-- The values of the counter from round `k` on, where it has the value `x`. The bound is found anew
before every round, by the interpretation that holds then. -/
inductive Rounds (I : Nat → Interpretation F) (c : Counting) : Nat → Int → List Int → Prop
  | stop {k : Nat} {x y : Int} (hy : (I k).Counts c.bound y) (h : c.test.holds x y = false) :
    Rounds I c k x []
  | round {k : Nat} {x y : Int} {xs : List Int} (hy : (I k).Counts c.bound y)
    (h : c.test.holds x y = true) (hxs : Rounds I c (k + 1) (c.move.apply x) xs) :
    Rounds I c k x (x :: xs)

/-- The loop ends, and these are the values of its counter in order. -/
def Visits (I : Nat → Interpretation F) (c : Counting) (xs : List Int) : Prop :=
  ∃ x, (I 0).Counts c.first x ∧ c.Rounds I 0 x xs

variable {k : Nat} {x y : Int} {xs : List Int}

theorem rounds_iff_of_stop (hy : (I k).Counts c.bound y) (h : c.test.holds x y = false) :
    c.Rounds I k x xs ↔ xs = [] := by
  constructor
  · rintro (⟨-, -⟩ | ⟨hz, hgo, -⟩)
    · rfl
    · rw [hz.unique hy, h] at hgo
      cases hgo
  · rintro rfl
    exact .stop hy h

theorem rounds_iff_of_round (hy : (I k).Counts c.bound y) (h : c.test.holds x y = true) :
    c.Rounds I k x xs ↔ ∃ ys, c.Rounds I (k + 1) (c.move.apply x) ys ∧ xs = x :: ys := by
  constructor
  · rintro (⟨hz, hstop⟩ | ⟨-, -, hys⟩)
    · rw [hz.unique hy, h] at hstop
      cases hstop
    · exact ⟨_, hys, rfl⟩
  · rintro ⟨ys, hys, rfl⟩
    exact .round hy h hys

end C.Counting

/-- The rounds from number `k` on, when `m` of them are left. -/
theorem C.Loop.rounds_iff {F : Type} {I : Nat → Interpretation F} {l : Loop} (hl : l.step ≠ 0)
    {b n : Int} (hbound : ∀ j, (I j).Counts l.bound (b + n * l.step.toInt)) {k m : Nat}
    (hm : n.toNat - k = m) {xs : List Int} :
    l.counting.Rounds I k (b + k * l.step.toInt) xs ↔
      xs = (List.range' k m).map fun j : Nat => b + j * l.step.toInt := by
  have htest := holds_test hl b n k
  induction m generalizing k xs with
  | zero =>
    rw [decide_eq_false (by omega)] at htest
    exact Counting.rounds_iff_of_stop (hbound k) htest
  | succ m ih =>
    rw [decide_eq_true (by omega)] at htest
    have hnext : l.counting.move.apply (b + k * l.step.toInt) =
        b + ((k + 1 : Nat) : Int) * l.step.toInt := by
      rw [counting, apply_move, Nat.cast_succ, add_one_mul, add_assoc]
    rw [Counting.rounds_iff_of_round (hbound k) htest, hnext]
    simp only [ih (k := k + 1) (by omega) (holds_test hl b n _)]
    rw [exists_eq_left, List.range'_succ, List.map_cons]

/-! ## The points of the range -/

/-- The first line of a loop, but for the pragma of an unrolled one. -/
theorem C.Loop.header_mem_lines (target : Target) (names : Var → String) (depth : Nat) (head : Loop)
    (body : Stmt) : ⟨depth, head.counting.text target names, some head.note⟩ ∈
      (Stmt.loop head body).lines target names depth := by
  rw [Stmt.lines, header_eq_text]
  exact List.mem_append_right _ List.mem_cons_self

/-- Copies from a literal on are at the points of the range, one word for each. -/
theorem LoopIndex.expand_eq_words {i : LoopIndex} {c : Copies} (hc : i.copies = .ok c) {w : Word}
    (hw : i.range.first = .int w) : ∃ ws : List Word,
      ws.map Int64.toInt = (List.range c.extent.toInt.toNat).map
        (fun k : Nat => w.toInt + k * c.step.toInt) ∧
      ∀ body, c.expand body =
        .ok (Block.ofList (ws.map fun u => body.subst [(i.var, .int u)])) := by
  obtain ⟨hvar, hfirst, -, -⟩ := copies_eq_ok hc
  have hfirst : c.first = .int w := hfirst.trans hw
  refine ⟨(List.range c.extent.toInt.toNat).map
    fun k : Nat => Int64.ofInt (w.toInt + k * c.step.toInt), ?_, fun body => ?_⟩
  · rw [List.map_map]
    refine List.map_congr_left fun k hk => Word.toInt_ofInt_of_fits ?_
    have hk := List.mem_range.1 hk
    exact (fits_of_copies hc (by omega) (by omega)).2 w hfirst
  · rw [Copies.expand_of_fits fun k h0 hk => fits_of_copies hc h0 hk, List.map_map, ← hvar]
    simp only [Function.comp_def, Copies.point_of_literal hfirst]

/-- **The counter runs through the points of the range**, in order, and the loop ends. Where the
loop can be written out from a literal on, the copies are at these points. -/
theorem loop_visits_range {F : Type} {I : Nat → Interpretation F} {zigzag : Bool} {known : C.Ranks}
    {kind : LoopKind} {i : LoopIndex} {body : Block} {s : C.Stmt} {b n : Int}
    (h : (Block.loop kind i body).toC zigzag known = .ok s)
    (hfirst : ∀ j, (I j).Counts i.range.first b) (hextent : ∀ j, (I j).Counts i.range.extent n) :
    ∃ (step : Word) (head : C.Loop) (rest : C.Stmt),
      i.range.step = .int step ∧ step ≠ 0 ∧ s = .loop head rest ∧ head.var = i.var ∧
      (∀ target names depth,
        ⟨depth, head.counting.text target names, some head.note⟩ ∈ s.lines target names depth) ∧
      (∀ xs, head.counting.Visits I xs ↔
        xs = (List.range n.toNat).map fun k : Nat => b + k * step.toInt) ∧
      ∀ c w, i.copies = .ok c → i.range.first = .int w → ∃ ws : List Word,
        ws.map Int64.toInt = (List.range n.toNat).map (fun k : Nat => b + k * step.toInt) ∧
        ∀ copied, c.expand copied =
          .ok (Block.ofList (ws.map fun u => copied.subst [(i.var, .int u)])) := by
  obtain ⟨head, hhead, h⟩ := bind_eq_ok_iff.1 h
  obtain ⟨⟨⟩, -, h⟩ := bind_eq_ok_iff.1 h
  obtain ⟨⟨⟩, -, h⟩ := bind_eq_ok_iff.1 h
  obtain ⟨rest, -, h⟩ := bind_eq_ok_iff.1 h
  obtain rfl := Except.ok.inj h
  obtain ⟨-, step, hstep, hne, rfl⟩ := LoopIndex.toC_eq_ok_iff.1 hhead
  refine ⟨step, _, rest, hstep, hne, rfl, rfl,
    fun target names depth => C.Loop.header_mem_lines target names depth _ rest, fun xs => ?_,
    fun c w hc hw => ?_⟩
  · have hrounds : C.Counting.Rounds I _ 0 (b + (0 : Nat) * step.toInt) xs ↔ _ :=
      C.Loop.rounds_iff (l := ⟨i.var, i.range.first, i.range.bound step, step, kind, i.tag⟩) hne
        (fun j => (hfirst j).bound (hextent j) step) (Nat.sub_zero _)
    rw [Nat.cast_zero, zero_mul, add_zero, ← List.range_eq_range'] at hrounds
    rw [← hrounds]
    constructor
    · rintro ⟨x, hx, hxs⟩
      rwa [← hx.unique (hfirst 0)]
    · exact fun hxs => ⟨b, hfirst 0, hxs⟩
  · obtain ⟨-, -, hn, hs⟩ := LoopIndex.copies_eq_ok hc
    obtain rfl := Expr.int.inj (hs.symm.trans hstep)
    have hb := hfirst 0
    have hm := hextent 0
    rw [hw] at hb
    rw [hn] at hm
    rw [← (Interpretation.counts_literal w).unique hb,
      ← (Interpretation.counts_literal c.extent).unique hm]
    exact LoopIndex.expand_eq_words hc hw

/-- Three points down from eight, in steps of three. -/
def countdown : LoopIndex := ⟨⟨0, "i", .int32⟩, ⟨.int 8, .int 3, .int (-3)⟩, ""⟩

theorem loop_visits_range_countdown : ∃ (head : C.Loop) (ws : List Word),
    head.counting = ⟨⟨0, "i", .int32⟩, .int 8, .greater, .int (-1), .lower 3⟩ ∧
    (∀ xs, head.counting.Visits (fun _ => tiltMeaning) xs ↔ xs = [8, 5, 2]) ∧
    ws.map Int64.toInt = [8, 5, 2] := by
  obtain ⟨s, hs⟩ : ∃ s, (Block.loop .spatial countdown .nop).toC false [] = .ok s := ⟨_, rfl⟩
  obtain ⟨c, hc⟩ : ∃ c, countdown.copies = .ok c := ⟨_, rfl⟩
  obtain ⟨step, head, rest, hstep, -, rfl, -, -, hvisits, hcopies⟩ :=
    loop_visits_range (I := fun _ => tiltMeaning) (b := 8) (n := 3) hs
      (fun _ => ⟨.int 8, rfl, rfl⟩) fun _ => ⟨.int 3, rfl, rfl⟩
  obtain ⟨ws, hws, -⟩ := hcopies c 8 hc rfl
  obtain rfl : step = -3 := (Expr.int.inj hstep).symm
  obtain ⟨rfl, -⟩ := C.Stmt.loop.inj (Except.ok.inj hs)
  exact ⟨_, ws, rfl, hvisits, hws⟩

end LoopNest
