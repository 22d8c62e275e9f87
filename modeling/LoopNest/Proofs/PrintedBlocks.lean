import LoopNest.Block.Vars
import LoopNest.Proofs.PrintedExprs
import LoopNest.Proofs.Rows

/-!
# Blocks read back from their text

The blanks before a row tell its depth, its first word tells what it is, and its parts end where a
character stands that they cannot hold. A printed block therefore shows its rows, up to what printed
expressions do not show and the types of the variables that loops and bindings introduce.

* `Row.vars`, `Row.calls`, `Row.Legible`: what a row mentions;
* `Row.Alike`: rows that differ only in what is not shown;
* `Row.Kind`: what the first word of a row tells;
* **`Row.readsBack`**: a row;
* **`Block.alike_of_text_eq`**: blocks of one text have rows alike.
-/

namespace LoopNest

open Text

/-! ## What a row mentions -/

/-- The three parts of a range. -/
def Range.parts (r : Range) : List Expr := [r.first, r.extent, r.step]

namespace Row

/-- The variables of a row in order of appearance. -/
def vars : Row → List Var
  | loop _ i => i.var :: Expr.varsAll i.range.parts
  | alloc v shape _ => v :: Expr.varsAll shape
  | bind bs => bs.flatMap fun b => b.var :: b.value.vars
  | eval e => e.vars
  | store v is e => v :: (Expr.varsAll is ++ e.vars)
  | close => []

/-- The calls of a row, as names with types. -/
def calls : Row → List (String × ElemType)
  | loop _ i => Expr.callsAll i.range.parts
  | alloc _ shape _ => Expr.callsAll shape
  | bind bs => bs.flatMap fun b => b.value.calls
  | eval e => e.calls
  | store _ is e => Expr.callsAll is ++ e.calls
  | close => []

/-- The storage class that a row names. -/
def storage? : Row → Option String
  | alloc _ _ storage => some storage
  | _ => none

/-- Variables and functions have names that look like names, and a storage class is on one line. -/
structure Legible (row : Row) : Prop where
  vars : ∀ v ∈ row.vars, Plain v.name
  calls : ∀ c ∈ row.calls, Callable c.1
  storage : ∀ s ∈ row.storage?, '\n' ∉ s.toList

end Row

theorem Block.vars_eq_rows (depth : Nat) (b : Block) :
    b.vars = (b.rows depth).flatMap fun p => p.2.vars := by
  induction b generalizing depth with
  | seq a b iha ihb => rw [vars, rows, iha depth, ihb depth, List.flatMap_append]
  | loop k i body ih | alloc v shape storage body ih | bind bs body ih =>
    rw [vars, rows, ih (depth + 1), List.flatMap_cons, List.flatMap_append]
    simp [Row.vars, Range.vars, Range.parts, Expr.varsAll]
  | eval | store => simp [vars, rows, Row.vars]

/-! ## Parts of a row -/

theorem LoopKind.text_injective : Function.Injective text := by
  intro k l h
  cases k <;> cases l <;> first | rfl | exact absurd h (by decide)

/-- A variable in front of a delimiter reads back. -/
theorem Var.text_append_inj {v w : Var} (hv : Plain v.name) (hw : Plain w.name) {r s : List Char}
    (hr : BeginsWith isDelimiter r) (hs : BeginsWith isDelimiter s)
    (h : v.text.toList ++ r = w.text.toList ++ s) : v.name = w.name ∧ r = s := by
  rw [Expr.text_of_plain hv, Expr.text_of_plain hw] at h
  obtain ⟨hname, hrest⟩ := append_inj_of_stop hv.1.2 hw.1.2 hr hs h
  exact ⟨String.toList_inj.1 hname, hrest⟩

theorem ElemType.text_chars (t : ElemType) : ∀ c ∈ t.text.toList, isDelimiter c = false := by
  cases t <;> decide

theorem LoopKind.text_chars (k : LoopKind) : ∀ c ∈ k.text.toList, isDelimiter c = false := by
  cases k <;> decide

namespace Binding

/-- Names look like names. -/
structure Legible (b : Binding) : Prop where
  var : Plain b.var.name
  value : b.value.Legible

/-- Two bindings differ only in what their texts do not show. -/
def Alike (b c : Binding) : Prop := b.var.name = c.var.name ∧ b.value.Alike c.value

/-- A binding in front of a character that may follow an expression reads back. -/
theorem text_append_inj {b c : Binding} (hb : b.Legible) (hc : c.Legible) {r s : List Char}
    (hr : BeginsWith closes r) (hs : BeginsWith closes s)
    (h : b.text.toList ++ r = c.text.toList ++ s) : b.Alike c ∧ r = s := by
  have htext : ∀ (b : Binding) (r : List Char), b.text.toList ++ r =
      b.var.text.toList ++ ' ' :: '=' :: ' ' :: (b.value.text.toList ++ r) := fun b r => by
    simp [text]
  have hblank : ∀ q, BeginsWith isDelimiter (' ' :: q) := fun q => ⟨' ', q, rfl, by decide⟩
  rw [htext, htext] at h
  obtain ⟨hname, h⟩ := Var.text_append_inj hb.var hc.var (hblank _) (hblank _) h
  obtain ⟨hvalue, hrest⟩ := Expr.readsBack hb.value hc.value hr hs
    (List.cons.inj (List.cons.inj (List.cons.inj h).2).2).2
  exact ⟨⟨hname, hvalue⟩, hrest⟩

theorem exists_cons_text {b : Binding} (hb : b.Legible) (r : List Char) :
    ∃ c cs, b.text.toList ++ r = c :: cs ∧ closes c = false := by
  obtain ⟨c, cs, hname⟩ := List.exists_cons_of_ne_nil hb.var.1.1
  have hc : isDelimiter c = false := hb.var.1.2 c (hname ▸ List.mem_cons_self)
  refine ⟨c, _, by rw [text, Expr.text_of_plain hb.var]; simp [hname]; rfl, ?_⟩
  by_contra h
  rw [isDelimiter_of_closes (by simpa using h)] at hc
  exact nomatch hc

end Binding

namespace Row

/-- The tag of a loop, with what stands in front of it. -/
def tagText (tag : String) : String := if tag.isEmpty then "" else " @" ++ quote tag

/-- A tag in front of a brace reads back. -/
theorem tagText_append_inj {s t : String} {q r : List Char}
    (h : (tagText s).toList ++ ' ' :: '\x7b' :: q = (tagText t).toList ++ ' ' :: '\x7b' :: r) :
    s = t ∧ q = r := by
  have hquote : ∀ t q, (" @" ++ quote t).toList ++ q = ' ' :: '@' :: ((quote t).toList ++ q) :=
    fun t q => by simp
  have hsign : ∀ q r : List Char, ' ' :: '\x7b' :: q ≠ ' ' :: '@' :: r := fun q r h =>
    absurd (List.cons.inj (List.cons.inj h).2).1 (by decide)
  unfold tagText at h
  split at h
  · next hs =>
    split at h
    · next ht =>
      rw [String.isEmpty_iff.1 hs, String.isEmpty_iff.1 ht]
      exact ⟨rfl, by simpa using h⟩
    · rw [hquote] at h
      exact absurd h (hsign _ _)
  · split at h
    · rw [hquote] at h
      exact absurd h.symm (hsign _ _)
    · rw [hquote, hquote] at h
      obtain ⟨hst, hrest⟩ := quote_append_inj (List.cons.inj (List.cons.inj h).2).2
      exact ⟨hst, by simpa using hrest⟩

theorem beginsWith_tagText (tag : String) (r : List Char) :
    BeginsWith isDelimiter ((tagText tag).toList ++ ' ' :: r) := by
  unfold tagText
  split
  · exact ⟨' ', r, rfl, by decide⟩
  · rw [String.toList_append]
    exact ⟨' ', _, rfl, by decide⟩

/-- A storage class in front of a brace reads back. -/
theorem storage_append_inj {s t : String} (hs : '\n' ∉ s.toList) (ht : '\n' ∉ t.toList)
    {q r : List Char} (h : s.toList ++ ' ' :: '\x7b' :: '\n' :: q =
      t.toList ++ ' ' :: '\x7b' :: '\n' :: r) : s = t ∧ q = r := by
  have hchars : ∀ {s : String}, '\n' ∉ s.toList →
      ∀ c ∈ s.toList ++ [' ', '\x7b'], decide (c = '\n') = false := by
    intro s hs c hc
    refine decide_eq_false ?_
    rintro rfl
    exact (List.mem_append.1 hc).elim hs (by decide)
  have h : (s.toList ++ [' ', '\x7b']) ++ '\n' :: q = (t.toList ++ [' ', '\x7b']) ++ '\n' :: r := by
    simpa using h
  obtain ⟨htext, hrest⟩ := append_inj_of_stop (p := fun c => decide (c = '\n')) (hchars hs)
    (hchars ht) ⟨_, q, rfl, by decide⟩ ⟨_, r, rfl, by decide⟩ h
  exact ⟨String.toList_inj.1 (List.append_cancel_right htext), (List.cons.inj hrest).2⟩

/-! ## The first word of a row -/

/-- What the first word of a row tells. -/
inductive Kind where
  | loop
  | alloc
  | bind
  | nop
  | eval
  | store
  | close

/-- The first word of a row of some kind. -/
def Kind.word : Kind → String
  | loop => "for"
  | alloc => "alloc"
  | bind => "remap"
  | nop => "nop"
  | eval => "eval"
  | store => "store"
  | close => "\x7d"

theorem Kind.word_chars (k : Kind) : ∀ c ∈ k.word.toList, isDelimiter c = false := by
  cases k <;> decide

theorem Kind.word_injective : Function.Injective word := by
  intro k l h
  cases k <;> cases l <;> first | rfl | exact absurd h (by decide)

/-- The kind of a row. -/
def kind : Row → Kind
  | loop _ _ => .loop
  | alloc _ _ _ => .alloc
  | bind _ => .bind
  | eval e => if Block.isNop (.eval e) then .nop else .eval
  | store _ _ _ => .store
  | close => .close

/-- The rows of each kind. -/
def Kind.Holds : Kind → Row → Prop
  | .loop, row => ∃ k i, row = Row.loop k i
  | .alloc, row => ∃ v shape storage, row = Row.alloc v shape storage
  | .bind, row => ∃ bs, row = Row.bind bs
  | .nop, row => row = Row.eval (.int 0)
  | .eval, row => ∃ e, row = Row.eval e ∧ Block.isNop (.eval e) = false
  | .store, row => ∃ v is e, row = Row.store v is e
  | .close, row => row = Row.close

theorem eq_zero_of_isNop {e : Expr} (h : Block.isNop (.eval e) = true) : e = .int 0 := by
  cases e with
  | int n => rw [eq_of_beq h]
  | _ => exact nomatch h

theorem holds_kind (row : Row) : row.kind.Holds row := by
  cases row with
  | eval e =>
    by_cases h : Block.isNop (.eval e) = true
    · rw [kind, if_pos h]
      exact congrArg Row.eval (eq_zero_of_isNop h)
    · rw [kind, if_neg h]
      exact ⟨e, rfl, by simpa using h⟩
  | loop => exact ⟨_, _, rfl⟩
  | alloc | store => exact ⟨_, _, _, rfl⟩
  | bind => exact ⟨_, rfl⟩
  | close => rfl

/-- What comes after the first word of a row. -/
def rest : Row → List Char
  | loop k i =>
    ' ' :: (i.var.text.toList ++ ' ' :: ("in range(".toList ++
      ((Expr.listing i.range.parts).toList ++ ')' :: ' ' ::
        (k.text.toList ++ ((tagText i.tag).toList ++ [' ', '\x7b'])))))
  | alloc v shape storage =>
    ' ' :: (v.text.toList ++ '[' :: ((Expr.listing shape).toList ++ ']' :: ' ' ::
      (v.type.text.toList ++ ' ' :: (storage.toList ++ [' ', '\x7b']))))
  | bind bs => ' ' :: ((Expr.commas (bs.map Binding.text)).toList ++ [' ', '\x7b'])
  | eval e => if Block.isNop (.eval e) then [] else ' ' :: e.text.toList
  | store v is e =>
    ' ' :: (v.text.toList ++ '[' :: ((Expr.listing is).toList ++
      ']' :: ' ' :: '=' :: ' ' :: e.text.toList))
  | close => []

theorem toList_text (row : Row) : row.text.toList = row.kind.word.toList ++ row.rest := by
  cases row with
  | loop k i =>
    simp [text, LoopIndex.header, kind, Kind.word, rest, Range.text, Range.parts, Expr.listing,
      Expr.commas, Expr.texts, tagText]
  | alloc v shape storage => simp [text, kind, Kind.word, rest]
  | bind bs => simp [text, kind, Kind.word, rest]
  | eval e =>
    rw [text, kind, rest]
    split
    · rfl
    · simp [Kind.word]
  | store v is e => simp [text, kind, Kind.word, rest]
  | close => rfl

theorem beginsWith_rest (row : Row) (r : List Char) :
    BeginsWith isDelimiter (row.rest ++ '\n' :: r) := by
  cases row with
  | loop | alloc | bind | store => exact ⟨' ', _, rfl, by decide⟩
  | eval e =>
    rw [rest]
    split
    · exact ⟨'\n', r, rfl, by decide⟩
    · exact ⟨' ', _, rfl, by decide⟩
  | close => exact ⟨'\n', r, rfl, by decide⟩

/-- First words are the same, and so is what comes after them; so both rows are of one kind. -/
theorem split_text {a b : Row} {r s : List Char}
    (h : a.text.toList ++ '\n' :: r = b.text.toList ++ '\n' :: s) :
    a.rest ++ '\n' :: r = b.rest ++ '\n' :: s ∧ a.kind.Holds b := by
  rw [toList_text, toList_text, List.append_assoc, List.append_assoc] at h
  obtain ⟨hkind, hrest⟩ := word_append_inj Kind.word_injective Kind.word_chars
    (beginsWith_rest a r) (beginsWith_rest b s) h
  exact ⟨hrest, hkind ▸ b.holds_kind⟩

/-! ## Reading back -/

/-- Two rows differ only in what their texts do not show. -/
def Alike : Row → Row → Prop
  | loop k i, loop l j =>
    k = l ∧ i.var.name = j.var.name ∧ Expr.AllAlike i.range.parts j.range.parts ∧ i.tag = j.tag
  | alloc v shape storage, alloc w shape' storage' =>
    v.name = w.name ∧ v.type = w.type ∧ Expr.AllAlike shape shape' ∧ storage = storage'
  | bind bs, bind cs =>
    List.Forall₂ Binding.Alike bs cs
  | eval e, eval f => e.Alike f
  | store v is e, store w js f => v.name = w.name ∧ Expr.AllAlike is js ∧ e.Alike f
  | close, close => True
  | _, _ => False

section

variable {row : Row}

/-- The expressions of a list in a row have names that look like names. -/
theorem Legible.exprs (h : row.Legible) {es : List Expr}
    (hvars : ∀ v ∈ Expr.varsAll es, v ∈ row.vars) (hcalls : ∀ c ∈ Expr.callsAll es, c ∈ row.calls) :
    ∀ e ∈ es, e.Legible :=
  Expr.legible_of_all (fun v hv => h.vars v (hvars v hv)) fun c hc => h.calls c (hcalls c hc)

theorem Legible.binding {bs : List Binding} (h : (bind bs).Legible) {b : Binding} (hb : b ∈ bs) :
    b.Legible := by
  obtain ⟨hvar, hvalue⟩ := List.forall_mem_cons.1 (List.forall_mem_flatMap.1 h.vars b hb)
  exact ⟨hvar, hvalue, List.forall_mem_flatMap.1 h.calls b hb⟩

/-- A list of expressions in a row reads back, up to the bracket that closes it. -/
theorem listing_append_inj {es fs : List Expr} (hes : ∀ e ∈ es, e.Legible)
    (hfs : ∀ f ∈ fs, f.Legible) {c : Char} (hc : closes c = true) (hcomma : c ≠ ',')
    {r s : List Char}
    (h : (Expr.listing es).toList ++ c :: r = (Expr.listing fs).toList ++ c :: s) :
    Expr.AllAlike es fs ∧ r = s :=
  Expr.listing_append_inj ", " rfl (fun e he => Expr.readsBack (hes e he)) hes hfs hc hcomma h

end

/-- **A row reads back**: what is printed like it is alike. -/
theorem readsBack {a b : Row} (ha : a.Legible) (hb : b.Legible) {r s : List Char}
    (h : a.text.toList ++ '\n' :: r = b.text.toList ++ '\n' :: s) : a.Alike b ∧ r = s := by
  have hblank : ∀ q, BeginsWith isDelimiter (' ' :: q) := fun q => ⟨' ', q, rfl, by decide⟩
  have hbracket : ∀ q, BeginsWith isDelimiter ('[' :: q) := fun q => ⟨'[', q, rfl, by decide⟩
  have hline : ∀ q, BeginsWith closes ('\n' :: q) := fun q => ⟨'\n', q, rfl, by decide⟩
  obtain ⟨hrest, hkind⟩ := split_text h
  cases a with
  | loop k i =>
    obtain ⟨l, j, rfl⟩ := hkind
    simp only [rest, List.cons_append, List.append_assoc, List.nil_append] at hrest
    obtain ⟨hname, h⟩ := Var.text_append_inj (ha.vars i.var List.mem_cons_self)
      (hb.vars j.var List.mem_cons_self) (hblank _) (hblank _) (List.cons.inj hrest).2
    obtain ⟨hrange, h⟩ := listing_append_inj
      (ha.exprs (fun v hv => List.mem_cons_of_mem _ hv) fun c hc => hc)
      (hb.exprs (fun v hv => List.mem_cons_of_mem _ hv) fun c hc => hc) (by decide) (by decide)
      (List.append_cancel_left (List.cons.inj h).2)
    obtain ⟨hk, h⟩ := word_append_inj LoopKind.text_injective LoopKind.text_chars
      (beginsWith_tagText i.tag _) (beginsWith_tagText j.tag _) (List.cons.inj h).2
    obtain ⟨htag, h⟩ := tagText_append_inj h
    exact ⟨⟨hk, hname, hrange, htag⟩, (List.cons.inj h).2⟩
  | alloc v shape storage =>
    obtain ⟨w, shape', storage', rfl⟩ := hkind
    simp only [rest, List.cons_append, List.append_assoc, List.nil_append] at hrest
    obtain ⟨hname, h⟩ := Var.text_append_inj (ha.vars v List.mem_cons_self)
      (hb.vars w List.mem_cons_self) (hbracket _) (hbracket _) (List.cons.inj hrest).2
    obtain ⟨hshape, h⟩ := listing_append_inj
      (ha.exprs (fun v hv => List.mem_cons_of_mem _ hv) fun c hc => hc)
      (hb.exprs (fun v hv => List.mem_cons_of_mem _ hv) fun c hc => hc) (by decide) (by decide)
      (List.cons.inj h).2
    obtain ⟨htype, h⟩ := word_append_inj ElemType.text_injective ElemType.text_chars (hblank _)
      (hblank _) (List.cons.inj h).2
    obtain ⟨hstorage, h⟩ := storage_append_inj (ha.storage storage rfl) (hb.storage storage' rfl)
      (List.cons.inj h).2
    exact ⟨⟨hname, htype, hshape, hstorage⟩, h⟩
  | bind bs =>
    obtain ⟨cs, rfl⟩ := hkind
    simp only [rest, List.cons_append, List.append_assoc, List.nil_append] at hrest
    obtain ⟨hall, h⟩ := Expr.intercalate_append_inj ", " rfl
      (fun b hbs c hcs _ _ => Binding.text_append_inj (ha.binding hbs) (hb.binding hcs))
      (fun b hbs => Binding.exists_cons_text
        ((List.mem_append.1 hbs).elim (fun h => ha.binding h) fun h => hb.binding h))
      (by decide) (by decide) (List.cons.inj hrest).2
    exact ⟨hall, (List.cons.inj (List.cons.inj h).2).2⟩
  | eval e =>
    by_cases hnop : Block.isNop (.eval e) = true
    · rw [kind, if_pos hnop] at hkind
      obtain rfl := hkind
      obtain rfl := eq_zero_of_isNop hnop
      exact ⟨rfl, (List.cons.inj hrest).2⟩
    · rw [kind, if_neg hnop] at hkind
      obtain ⟨f, rfl, hf⟩ := hkind
      rw [rest, if_neg hnop, rest, if_neg (by simp [hf])] at hrest
      obtain ⟨hef, h⟩ := Expr.readsBack ⟨ha.vars, ha.calls⟩ (f := f) ⟨hb.vars, hb.calls⟩ (hline _)
        (hline _) (List.cons.inj hrest).2
      exact ⟨hef, (List.cons.inj h).2⟩
  | store v is e =>
    obtain ⟨w, js, f, rfl⟩ := hkind
    simp only [rest, List.cons_append, List.append_assoc] at hrest
    obtain ⟨hname, h⟩ := Var.text_append_inj (ha.vars v List.mem_cons_self)
      (hb.vars w List.mem_cons_self) (hbracket _) (hbracket _) (List.cons.inj hrest).2
    obtain ⟨his, h⟩ := listing_append_inj
      (ha.exprs (fun v hv => List.mem_cons_of_mem _ (List.mem_append_left _ hv))
        fun c hc => List.mem_append_left _ hc)
      (hb.exprs (fun v hv => List.mem_cons_of_mem _ (List.mem_append_left _ hv))
        fun c hc => List.mem_append_left _ hc) (by decide) (by decide) (List.cons.inj h).2
    obtain ⟨hef, h⟩ := Expr.readsBack (e := e) (f := f)
      ⟨fun v hv => ha.vars v (List.mem_cons_of_mem _ (List.mem_append_right _ hv)),
        fun c hc => ha.calls c (List.mem_append_right _ hc)⟩
      ⟨fun v hv => hb.vars v (List.mem_cons_of_mem _ (List.mem_append_right _ hv)),
        fun c hc => hb.calls c (List.mem_append_right _ hc)⟩ (hline _) (hline _)
      (List.cons.inj (List.cons.inj (List.cons.inj h).2).2).2
    exact ⟨⟨hname, his, hef⟩, (List.cons.inj h).2⟩
  | close =>
    obtain rfl := hkind
    exact ⟨trivial, (List.cons.inj hrest).2⟩

/-- A row with the blanks before it and the end of its line. -/
def line (p : Nat × Row) : List Char :=
  List.replicate (2 * p.1) ' ' ++ (p.2.text.toList ++ ['\n'])

/-- A line reads back. -/
theorem line_append_inj {p q : Nat × Row} (hp : p.2.Legible) (hq : q.2.Legible) {r s : List Char}
    (h : line p ++ r = line q ++ s) : (p.1 = q.1 ∧ p.2.Alike q.2) ∧ r = s := by
  have hblanks : ∀ n, ∀ c ∈ List.replicate n ' ', decide (c ≠ ' ') = false := by
    intro n c hc
    rw [List.eq_of_mem_replicate hc]
    rfl
  have hword : ∀ (row : Row) (r : List Char),
      BeginsWith (fun c => decide (c ≠ ' ')) (row.text.toList ++ '\n' :: r) := by
    intro row r
    obtain ⟨c, cs, hcs, hc⟩ : ∃ c cs, row.kind.word.toList = c :: cs ∧ decide (c ≠ ' ') = true := by
      cases row.kind <;> exact ⟨_, _, rfl, by decide⟩
    exact ⟨c, _, by rw [toList_text, hcs]; rfl, hc⟩
  simp only [line, List.append_assoc, List.singleton_append] at h
  obtain ⟨hindent, h⟩ := append_inj_of_stop (hblanks _) (hblanks _) (hword p.2 r) (hword q.2 s) h
  have hdepth := congrArg List.length hindent
  rw [List.length_replicate, List.length_replicate] at hdepth
  obtain ⟨halike, hrest⟩ := readsBack hp hq h
  exact ⟨⟨by omega, halike⟩, hrest⟩

end Row

namespace Block

/-- The calls of a block, as names with types. -/
def calls (b : Block) : List (String × ElemType) := (b.rows 0).flatMap fun p => p.2.calls

/-- The storage classes that a block names. -/
def storages (b : Block) : List String := (b.rows 0).filterMap fun p => p.2.storage?

/-- Variables and functions have names that look like names, and storage classes are on one line. -/
structure Legible (b : Block) : Prop where
  vars : ∀ v ∈ b.vars, Plain v.name
  calls : ∀ c ∈ b.calls, Callable c.1
  storages : ∀ s ∈ b.storages, '\n' ∉ s.toList

theorem Legible.row {b : Block} (h : b.Legible) {p : Nat × Row} (hp : p ∈ b.rows 0) :
    p.2.Legible where
  vars v hv := h.vars v (b.vars_eq_rows 0 ▸ List.mem_flatMap_of_mem hp hv)
  calls c hc := h.calls c (List.mem_flatMap_of_mem hp hc)
  storage s hs := h.storages s (List.mem_filterMap.2 ⟨p, hp, hs⟩)

theorem toList_text (b : Block) : b.text.toList = (b.rows 0).flatMap Row.line := by
  have hline : ∀ p : Nat × Row,
      (indented p.1 p.2.text ++ "\n").toList = Row.line p := fun p => by
    simp [indented, Row.line]
  rw [text, lines_eq_rows, String.toList_join, List.map_map, List.flatMap_map]
  simp only [Function.comp_def, hline]

/-- **Blocks of one text have rows alike**, at the same depths. -/
theorem alike_of_text_eq {b c : Block} (hb : b.Legible) (hc : c.Legible) (h : b.text = c.text) :
    List.Forall₂ (fun p q => p.1 = q.1 ∧ p.2.Alike q.2) (b.rows 0) (c.rows 0) := by
  have hne : ∀ (p : Nat × Row) (r : List Char), Row.line p ++ r ≠ [] := fun p r => by
    simp [Row.line]
  have h : (b.rows 0).flatMap Row.line ++ [] = (c.rows 0).flatMap Row.line ++ [] := by
    rw [← toList_text, ← toList_text, h]
  obtain ⟨hall, -⟩ := flatMap_append_inj (fun _ => True) trivial trivial
    (fun _ _ => trivial)
    (fun p hp q hq _ _ _ _ => Row.line_append_inj (hb.row hp) (hc.row hq))
    (fun p _ r _ => hne p r) (fun q _ r _ => hne q r) h
  exact hall

end Block

end LoopNest
