import LoopNest.Proofs.PrintedLiterals

/-!
# C text without its comments

A compiler joins a line that ends in a backslash to the next one, then takes every comment for a
blank. What stands between quotes is no comment. Of the white space only blanks in front of the end
of a line are dropped here, so texts that are the same by this reading are the same by any coarser
one. A line ends in a line feed: neither trigraphs nor a carriage return in front of the line feed
are known here.

* `C.joined`, `C.Mode`, `C.strip`, `C.trimmed`: the steps of reading;
* `C.uncommented`: a text without its comments;
* `C.Plain`: what is read as it stands;
* `C.ClosesComment`: a text holds the sign that ends a comment;
* **`C.strip_comment`**: a comment is a blank, whatever else is in it;
* **`C.plain_of_safe`**, **`C.plain_quote`**: ordinary characters and quoted texts are plain;
* **`C.uncommented_render`**: what is left of lines is their code.
-/

namespace LoopNest

namespace C

/-! ## Reading -/

/-- Lines that end in a backslash are joined to the next. Left out are the trigraph that stands for
a backslash, and a carriage return between the backslash and the line feed. -/
def joined : List Char → List Char
  | '\\' :: '\n' :: cs => joined cs
  | c :: cs => c :: joined cs
  | [] => []

/-- Where a reader is: in code, in a comment to the end of the line, in a comment to its closing
sign, or between quotes. -/
inductive Mode where
  | code
  | line
  | block
  | quoted (mark : Char)
deriving DecidableEq

/-- The text with a blank for every comment. -/
def strip : Mode → List Char → List Char
  | .code, '/' :: '*' :: cs => ' ' :: strip .block cs
  | .code, '/' :: '/' :: cs => ' ' :: strip .line cs
  | .code, c :: cs => c :: strip (if c = '"' ∨ c = '\'' then .quoted c else .code) cs
  | .line, '\n' :: cs => '\n' :: strip .code cs
  | .line, _ :: cs => strip .line cs
  | .block, '*' :: '/' :: cs => strip .code cs
  | .block, _ :: cs => strip .block cs
  | .quoted q, '\\' :: c :: cs => '\\' :: c :: strip (.quoted q) cs
  | .quoted q, c :: cs => c :: strip (if c = q then .code else .quoted q) cs
  | _, [] => []

/-- A character in front of a text; a blank at the end of a line is dropped. -/
def trimmedCons (c : Char) (cs : List Char) : List Char :=
  if c = ' ' ∧ (cs = [] ∨ cs.head? = some '\n') then cs else c :: cs

/-- The text without blanks at the ends of its lines. -/
def trimmed (cs : List Char) : List Char := cs.foldr trimmedCons []

/-- A C text without its comments. -/
def uncommented (text : String) : String :=
  String.ofList (trimmed (strip .code (joined text.toList)))

/-! ## Joined lines -/

theorem joined_cons {c : Char} (hc : c ≠ '\\') (cs : List Char) :
    joined (c :: cs) = c :: joined cs := by
  rw [joined]
  rintro cs' rfl
  exact fun _ => hc rfl

/-- Joining goes from part to part, if the next part does not begin with the end of a line. -/
theorem joined_append_cons {c : Char} (hc : c ≠ '\n') (as cs : List Char) :
    joined (as ++ c :: cs) = joined as ++ joined (c :: cs) := by
  fun_induction joined as with
  | case1 as ih => exact ih
  | case2 a as hnot ih =>
    rw [List.cons_append, List.cons_append, ← ih, joined]
    intro ds ha hds
    cases as with
    | nil => exact hc (List.cons.inj hds).1
    | cons b bs => exact hnot bs ha (congrArg (· :: bs) (List.cons.inj hds).1)
  | case3 => rfl

theorem joined_of_newline_not_mem {cs : List Char} (h : '\n' ∉ cs) : joined cs = cs := by
  fun_induction joined cs with
  | case1 cs => exact absurd (List.mem_cons_of_mem _ List.mem_cons_self) h
  | case2 c cs _ ih => rw [ih fun hmem => h (List.mem_cons_of_mem c hmem)]
  | case3 => rfl

theorem joined_of_backslash_not_mem {cs : List Char} (h : '\\' ∉ cs) (rest : List Char) :
    joined (cs ++ rest) = cs ++ joined rest := by
  induction cs with
  | nil => rfl
  | cons c cs ih =>
    have hc : c ≠ '\\' := fun hc => h (hc ▸ List.mem_cons_self)
    rw [List.cons_append, joined_cons hc, ih fun hmem => h (List.mem_cons_of_mem c hmem)]
    rfl

/-! ## Comments -/

/-- A text ends a comment in which it stands. A sign that comes about only by a trigraph, or where
lines end in a carriage return and a line feed, is left out. -/
def ClosesComment (s : String) : Prop := ['*', '/'] <:+: joined s.toList

instance (s : String) : Decidable (ClosesComment s) :=
  inferInstanceAs (Decidable (_ <:+: _))

/-- A comment goes on to the first closing sign. -/
theorem strip_block {cs : List Char} (h : ¬['*', '/'] <:+: cs) (rest : List Char) :
    strip .block (cs ++ (' ' :: '*' :: '/' :: rest)) = strip .code rest := by
  induction cs with
  | nil => rfl
  | cons c cs ih =>
    have htail : ¬['*', '/'] <:+: cs := fun hin => h (List.infix_cons hin)
    rw [List.cons_append, strip, ih htail]
    intro ds hc hds
    subst hc
    cases cs with
    | nil => exact absurd (List.cons.inj hds).1 (by decide)
    | cons d cs =>
      obtain rfl : d = '/' := (List.cons.inj hds).1
      exact h (List.IsPrefix.isInfix ⟨cs, rfl⟩)

/-- **A comment is a blank**, if its text does not close it. -/
theorem strip_comment {note : String} (h : ¬ClosesComment note) (rest : List Char) :
    strip .code (joined ((" /* " ++ note ++ " */").toList ++ rest)) =
      ' ' :: ' ' :: strip .code (joined rest) := by
  have hopen : " /* ".toList = [' ', '/', '*', ' '] := rfl
  have hclose : " */".toList = [' ', '*', '/'] := rfl
  rw [String.toList_append, String.toList_append, hopen, hclose]
  simp only [List.cons_append, List.nil_append, List.append_assoc]
  rw [joined_cons (by decide), joined_cons (by decide), joined_cons (by decide),
    joined_cons (by decide), joined_append_cons (by decide), joined_cons (by decide),
    joined_cons (by decide), joined_cons (by decide)]
  exact congrArg (fun cs => ' ' :: ' ' :: cs) (strip_block h _)

/-! ## Plain text -/

/-- The text is read as it stands, whatever follows. -/
structure Plain (s : String) : Prop where
  reads : ∀ rest, strip .code (joined (s.toList ++ rest)) = s.toList ++ strip .code (joined rest)

theorem plain_empty : Plain "" := ⟨fun _ => rfl⟩

theorem Plain.append {s t : String} (hs : Plain s) (ht : Plain t) : Plain (s ++ t) := by
  refine ⟨fun rest => ?_⟩
  rw [String.toList_append, List.append_assoc, hs.reads, ht.reads, List.append_assoc]

/-- A character that begins neither a comment nor a quotation, and joins no lines. -/
def isSafe (c : Char) : Bool := c ≠ '/' && c ≠ '"' && c ≠ '\'' && c ≠ '\\'

theorem strip_code_cons {c : Char} (hc : isSafe c = true) (cs : List Char) :
    strip .code (c :: cs) = c :: strip .code cs := by
  simp only [isSafe, Bool.and_eq_true, decide_eq_true_eq] at hc
  obtain ⟨⟨⟨hslash, hquote⟩, hmark⟩, -⟩ := hc
  rw [strip, if_neg (by simp [hquote, hmark])]
  · rintro ds rfl
    exact fun _ => hslash rfl
  · rintro ds rfl
    exact fun _ => hslash rfl

/-- **Safe characters are plain.** -/
theorem plain_of_safe {s : String} (h : ∀ c ∈ s.toList, isSafe c = true) : Plain s := by
  refine ⟨fun rest => ?_⟩
  have hback : '\\' ∉ s.toList := fun hmem => absurd (h _ hmem) (by decide)
  rw [joined_of_backslash_not_mem hback]
  generalize s.toList = cs at h
  induction cs with
  | nil => rfl
  | cons c cs ih =>
    obtain ⟨hc, hcs⟩ := List.forall_mem_cons.1 h
    rw [List.cons_append, strip_code_cons hc, ih hcs]
    rfl

theorem strip_quoted_cons {c : Char} (hquote : c ≠ '"') (hback : c ≠ '\\') (cs : List Char) :
    strip (.quoted '"') (c :: cs) = c :: strip (.quoted '"') cs := by
  rw [strip, if_neg hquote]
  rintro d ds rfl
  exact fun _ => hback rfl

theorem hex_chars {n : Nat} {c : Char} (h : c ∈ Text.hex n) :
    c ≠ '"' ∧ c ≠ '\\' ∧ c ≠ '\n' := by
  obtain ⟨d, hd, rfl⟩ := mem_toDigits (by omega) h
  have hall : ∀ d < 16, Nat.digitChar d ≠ '"' ∧ Nat.digitChar d ≠ '\\' ∧
      Nat.digitChar d ≠ '\n' := by decide
  exact hall d hd

/-- Between quotes a character is read as it is written. -/
theorem strip_escape (c : Char) (rest : List Char) :
    strip (.quoted '"') (Text.escape c ++ rest) = Text.escape c ++ strip (.quoted '"') rest := by
  have hhex : ∀ cs : List Char, (∀ c ∈ cs, c ≠ '"' ∧ c ≠ '\\' ∧ c ≠ '\n') →
      strip (.quoted '"') (cs ++ '\x7d' :: rest) = cs ++ '\x7d' :: strip (.quoted '"') rest := by
    intro cs h
    induction cs with
    | nil => exact strip_quoted_cons (by decide) (by decide) rest
    | cons c cs ih =>
      obtain ⟨hc, hcs⟩ := List.forall_mem_cons.1 h
      rw [List.cons_append, strip_quoted_cons hc.1 hc.2.1, ih hcs]
      rfl
  rcases Text.escape_cases c with ⟨hc, hback, hquote⟩ | ⟨k, hc, -⟩ | hc <;> rw [hc]
  · exact strip_quoted_cons hquote hback rest
  · rfl
  · rw [List.cons_append, List.cons_append, List.cons_append, List.append_assoc]
    change '\\' :: 'u' :: strip (.quoted '"') ('\x7b' :: _) = _
    rw [strip_quoted_cons (by decide) (by decide)]
    exact congrArg (fun cs => '\\' :: 'u' :: '\x7b' :: cs) ((hhex _ fun _ h => hex_chars h).trans
      (by simp))

theorem newline_not_mem_escape (c : Char) : '\n' ∉ Text.escape c := by
  have hshort : ∀ p ∈ Text.shortEscapes, '\n' ∉ ['\\', p.2] := by decide
  rcases Text.escape_cases c with ⟨hc, -⟩ | ⟨k, hc, hk⟩ | hc <;> rw [hc]
  · rintro h
    obtain rfl := List.mem_singleton.1 h
    exact absurd hc (by decide)
  · exact hshort _ hk
  · intro h
    simp only [List.mem_cons, List.mem_append, List.not_mem_nil, or_false] at h
    rcases h with h | h | h | h | h
    · exact absurd h (by decide)
    · exact absurd h (by decide)
    · exact absurd h (by decide)
    · exact (hex_chars h).2.2 rfl
    · exact absurd h (by decide)

/-- **Quoted texts are plain.** -/
theorem plain_quote (s : String) : Plain (Text.quote s) := by
  refine ⟨fun rest => ?_⟩
  have hbody : ∀ cs : List Char,
      strip (.quoted '"') (cs.flatMap Text.escape ++ '"' :: joined rest) =
        cs.flatMap Text.escape ++ '"' :: strip .code (joined rest) := by
    intro cs
    induction cs with
    | nil => rfl
    | cons c cs ih =>
      rw [List.flatMap_cons, List.append_assoc, strip_escape, ih, List.append_assoc]
  have hnewline : '\n' ∉ s.toList.flatMap Text.escape := by
    rw [List.mem_flatMap]
    rintro ⟨c, -, hc⟩
    exact newline_not_mem_escape c hc
  rw [Text.quote, String.toList_ofList]
  simp only [List.cons_append, List.append_assoc, List.nil_append]
  rw [joined_cons (by decide), joined_append_cons (by decide), joined_cons (by decide),
    joined_of_newline_not_mem hnewline]
  exact congrArg ('"' :: ·) (hbody _)

/-! ## Lines -/

theorem trimmed_append (as bs : List Char) :
    trimmed (as ++ bs) = as.foldr trimmedCons (trimmed bs) := List.foldr_append

/-- The code of a line, at its depth. -/
def Line.indented (width : Nat) (l : Line) : List Char :=
  List.replicate (l.depth * width) ' ' ++ (l.code.toList ++ ['\n'])

theorem trimmed_newline (cs : List Char) : trimmed ('\n' :: cs) = '\n' :: trimmed cs := by
  rw [trimmed, List.foldr_cons, trimmedCons, if_neg (by simp)]
  rfl

/-- Blanks in front of the end of a line are dropped. -/
theorem trimmed_blanks_newline (cs : List Char) :
    trimmed (' ' :: ' ' :: '\n' :: cs) = trimmed ('\n' :: cs) := by
  have hcons : ∀ ds, trimmed (' ' :: ds) = trimmedCons ' ' (trimmed ds) := fun _ => rfl
  rw [hcons, hcons, trimmed_newline, trimmedCons, trimmedCons]
  simp

/-- What is left of a line in front of others. -/
theorem uncommented_line {l : Line} (hcode : Plain l.code)
    (hnote : ∀ note ∈ l.note, ¬ClosesComment note) (width : Nat) (rest : List Char) :
    trimmed (strip .code (joined ((l.text width).toList ++ rest))) =
      trimmed (l.indented width ++ strip .code (joined rest)) := by
  have hblanks : Plain (String.ofList (List.replicate (l.depth * width) ' ')) := by
    refine plain_of_safe fun c hc => ?_
    rw [String.toList_ofList] at hc
    exact List.eq_of_mem_replicate hc ▸ rfl
  have hend : Plain "\n" := plain_of_safe (by decide)
  have hnewline : "\n".toList = ['\n'] := rfl
  rw [Line.text, Line.indented]
  cases hn : l.note with
  | none =>
    have hempty : "".toList = [] := rfl
    simp only [String.toList_append, List.append_assoc, hempty, List.nil_append]
    rw [hblanks.reads, hcode.reads, hend.reads, String.toList_ofList, hnewline]
  | some note =>
    have hcomment := strip_comment (hnote note hn) ("\n".toList ++ rest)
    simp only [String.toList_append, List.append_assoc] at hcomment ⊢
    rw [hblanks.reads, hcode.reads, hcomment, hend.reads, String.toList_ofList, hnewline]
    simp only [trimmed_append, trimmed_blanks_newline, List.cons_append, List.nil_append]

/-- **What is left of lines is their code.** -/
theorem uncommented_render {ls : List Line} (hcode : ∀ l ∈ ls, Plain l.code)
    (hnote : ∀ l ∈ ls, ∀ note ∈ l.note, ¬ClosesComment note) (width : Nat) :
    uncommented (Line.render width ls) =
      String.ofList (trimmed (ls.flatMap (Line.indented width))) := by
  have hlines : trimmed (strip .code (joined (Line.render width ls).toList)) =
      trimmed (ls.flatMap (Line.indented width)) := by
    rw [Line.render, String.toList_join]
    induction ls with
    | nil => rfl
    | cons l ls ih =>
      obtain ⟨hl, hls⟩ := List.forall_mem_cons.1 hcode
      obtain ⟨hn, hns⟩ := List.forall_mem_cons.1 hnote
      rw [List.map_cons, List.flatMap_cons, uncommented_line hl hn, trimmed_append, ih hls hns,
        List.flatMap_cons, trimmed_append]
  rw [uncommented, hlines]

end C

end LoopNest
