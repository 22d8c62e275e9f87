import LoopNest.Proofs.Identifiers
import LoopNest.Proofs.OpaqueCalls

/-!
# Reserved names

An identifier is chosen by what is taken, and what is taken are the identifiers chosen before. The
keywords of C, the routines in front of a kernel and the functions that it calls are not among them,
so nothing keeps a name apart from these but the hint that it comes from. A word is chosen where a
hint suggests it; and a word without a number behind it is chosen nowhere else.

* `C.keywords`, `C.Apart`: the keywords, and identifiers that are apart from all other names;
* `C.Names.hints`, `C.Names.chosen`: the hints of a kernel, and the identifiers made of them;
* `C.Names.Met`: what the names in use come from;
* **`C.candidate_ne_of_reserved`**: no numbered candidate is a keyword or a routine;
* **`C.Names.mem_chosen_iff`**: a word without a number is chosen exactly where it is suggested;
* **`reserved_iff_suggested`**: when a kernel's identifiers are reserved names.
-/

namespace LoopNest

namespace C

/-! ## Reserved names -/

/-- The keywords of C99. -/
def keywords : List String :=
  ["auto", "break", "case", "char", "const", "continue", "default", "do", "double", "else", "enum",
    "extern", "float", "for", "goto", "if", "inline", "int", "long", "register", "restrict",
    "return", "short", "signed", "sizeof", "static", "struct", "switch", "typedef", "union",
    "unsigned", "void", "volatile", "while", "_Bool", "_Complex", "_Imaginary"]

/-- No identifier is a keyword, a routine in front of the kernel, or a function that it calls. -/
def Apart (chosen : List String) (s : Stmt) (body : Block) : Prop :=
  ∀ w ∈ chosen, w ∉ keywords ∧ w ∉ s.routines.map Routine.name ∧ w ∉ body.callees

/-- A digit, or the underscore in front of a number. -/
def endsNumber (c : Char) : Bool := c.isDigit || c = '_'

theorem getLast?_candidate (base : String) (k : Nat) :
    ∃ c, (candidate base (k + 1)).toList.getLast? = some c ∧ endsNumber c = true := by
  obtain ⟨c, hc⟩ : ∃ c, (suffix (k + 1)).getLast? = some c := ⟨_, List.getLast?_cons⟩
  refine ⟨c, by rw [toList_candidate, List.getLast?_append, hc]; rfl, ?_⟩
  obtain rfl | hdigit := List.mem_cons.1 (List.mem_of_getLast? hc)
  · decide
  · rw [endsNumber, Nat.isDigit_of_mem_toDigits (by decide) (by decide) hdigit, Bool.true_or]

/-- **No numbered candidate is a keyword or a routine**: these end in letters. -/
theorem candidate_ne_of_reserved {w : String} (hw : w ∈ keywords ++ Routine.all.map Routine.name)
    (base : String) (k : Nat) : candidate base (k + 1) ≠ w := by
  have hends : (keywords ++ Routine.all.map Routine.name).all
      (fun w => !w.toList.getLast?.any endsNumber) = true := by decide
  rintro rfl
  obtain ⟨c, hc, hnumber⟩ := getLast?_candidate base k
  have hend := List.all_eq_true.1 hends _ hw
  rw [hc, Option.any_some, hnumber] at hend
  cases hend

/-! ## Where identifiers come from -/

namespace Names

section

variable {n : Names} {hints : List String} {vs : List Var} {v : Var}

/-- The names in use come from some hints and from the display names of the variables met: what is
suggested is taken, and what is taken is a candidate for what is suggested. -/
structure Met (hints : List String) (vs : List Var) (n : Names) : Prop where
  found : ∀ p ∈ n.given, p.1 ∈ vs ∧ n.find? p.1 = some p.2
  suggested : ∀ hint ∈ hints, identifier hint ∈ n.taken
  displayed : ∀ v ∈ vs, identifier v.name ∈ n.taken
  candidates : ∀ w ∈ n.taken, ∃ hint ∈ hints ++ vs.map Var.name, ∃ k,
    w = candidate (identifier hint) k

/-- A name is taken once it is suggested. -/
theorem mem_cons_freeName (taken : List String) (base : String) :
    base ∈ freeName taken base :: taken := by
  by_cases hbase : base ∈ taken
  · exact List.mem_cons_of_mem _ hbase
  · have hfree : Search taken base 0 base := .free hbase
    rw [← search_iff.1 hfree]
    exact List.mem_cons_self

theorem met_reserve (hint : String) : (empty.reserve hint).2.Met [hint] [] where
  found := List.forall_mem_nil _
  suggested := List.forall_mem_singleton.2 (mem_cons_freeName [] _)
  displayed := List.forall_mem_nil _
  candidates := List.forall_mem_singleton.2
    ⟨hint, List.mem_singleton_self _, exists_freeName_eq_candidate [] _⟩

theorem Met.candidates_concat (h : n.Met hints vs) (v : Var) : ∀ w ∈ n.taken,
    ∃ hint ∈ hints ++ (vs ++ [v]).map Var.name, ∃ k, w = candidate (identifier hint) k := by
  intro w hw
  obtain ⟨hint, hmem, hk⟩ := h.candidates w hw
  refine ⟨hint, ?_, hk⟩
  rw [List.map_append, ← List.append_assoc]
  exact List.mem_append_left _ hmem

/-- A variable that was met before suggests nothing new. -/
theorem Met.again (h : n.Met hints vs) (hv : v ∈ vs) : n.Met hints (vs ++ [v]) where
  found p hp := ⟨List.mem_append_left _ (h.found p hp).1, (h.found p hp).2⟩
  suggested := h.suggested
  displayed := List.forall_mem_append.2
    ⟨h.displayed, List.forall_mem_singleton.2 (h.displayed v hv)⟩
  candidates := h.candidates_concat v

theorem Met.new (h : n.Met hints vs) (hv : n.find? v = none) :
    (n.add v).Met hints (vs ++ [v]) := by
  have hkeep : ∀ {w s}, n.find? w = some s → (n.add v).find? w = some s :=
    fun hw => find?_add_of_some hw v
  have hself := find?_add_self hv
  rw [add_of_find?_eq_none hv] at hkeep hself ⊢
  refine ⟨List.forall_mem_cons.2 ⟨⟨?_, hself⟩, fun p hp => ?_⟩, fun hint hhint => ?_,
    List.forall_mem_append.2 ⟨fun w hw => ?_, List.forall_mem_singleton.2 ?_⟩,
    List.forall_mem_cons.2 ⟨⟨v.name, ?_, ?_⟩, h.candidates_concat v⟩⟩
  · exact List.mem_append_right _ (List.mem_singleton_self v)
  · exact ⟨List.mem_append_left _ (h.found p hp).1, hkeep (h.found p hp).2⟩
  · exact List.mem_cons_of_mem _ (h.suggested hint hhint)
  · exact List.mem_cons_of_mem _ (h.displayed w hw)
  · exact mem_cons_freeName _ _
  · simp
  · exact exists_freeName_eq_candidate _ _

theorem Met.add (h : n.Met hints vs) (v : Var) : (n.add v).Met hints (vs ++ [v]) := by
  cases hv : n.find? v with
  | some s =>
    rw [add_of_find?_eq_some hv]
    exact h.again (h.found _ (mem_given_of_find? hv)).1
  | none => exact h.new hv

theorem Met.addAll (h : n.Met hints vs) (ws : List Var) : (n.addAll ws).Met hints (vs ++ ws) := by
  induction ws generalizing n vs with
  | nil => rwa [List.append_nil]
  | cons w ws ih =>
    rw [List.append_cons]
    exact ih (h.add w)

end

/-! ## The identifiers of a kernel -/

section

variable (sig : Signature) (vs : List Var)

/-- The hints of a kernel: its name, and the display names of its variables. -/
def hints : List String := sig.name :: (params (some sig) ++ vs).map Var.name

/-- The identifiers of a kernel: that of the function, and those of its variables. -/
def chosen : List String :=
  function (some sig) ++ (params (some sig) ++ vs).map (run (some sig) vs).of

theorem met_run : (run (some sig) vs).Met [sig.name] (params (some sig) ++ vs) :=
  (met_reserve sig.name).addAll _

variable {sig vs} {w : String}

theorem mem_chosen_iff_mem_taken : w ∈ chosen sig vs ↔ w ∈ (run (some sig) vs).taken := by
  have hsound := sound_run (some sig) vs
  have hmet := met_run sig vs
  rw [hsound.taken_eq, chosen, List.mem_append, List.mem_append, or_comm]
  refine or_congr_left ⟨fun hw => ?_, fun hw => ?_⟩
  · obtain ⟨v, hv, rfl⟩ := List.mem_map.1 hw
    obtain ⟨s, hs⟩ : ∃ s, (run (some sig) vs).find? v = some s := exists_find?_addAll hv _
    rw [of, hs, Option.getD_some]
    exact List.mem_map_of_mem (mem_given_of_find? hs)
  · obtain ⟨p, hp, rfl⟩ := List.mem_map.1 hw
    obtain ⟨hv, hfind⟩ := hmet.found p hp
    refine List.mem_map.2 ⟨p.1, hv, ?_⟩
    rw [of, hfind, Option.getD_some]

/-- What a hint suggests is chosen. -/
theorem identifier_mem_chosen {hint : String} (h : hint ∈ hints sig vs) :
    identifier hint ∈ chosen sig vs := by
  have hmet := met_run sig vs
  rw [mem_chosen_iff_mem_taken]
  obtain rfl | h := List.mem_cons.1 h
  · exact hmet.suggested _ (List.mem_singleton_self _)
  · obtain ⟨v, hv, rfl⟩ := List.mem_map.1 h
    exact hmet.displayed v hv

/-- What is chosen is a candidate for what a hint suggests. -/
theorem exists_candidate_of_mem_chosen (h : w ∈ chosen sig vs) :
    ∃ hint ∈ hints sig vs, ∃ k, w = candidate (identifier hint) k :=
  (met_run sig vs).candidates w (mem_chosen_iff_mem_taken.1 h)

/-- **A word without a number behind it is chosen exactly where a hint suggests it.** -/
theorem mem_chosen_iff (hw : ∀ base k, candidate base (k + 1) ≠ w) :
    w ∈ chosen sig vs ↔ ∃ hint ∈ hints sig vs, identifier hint = w := by
  constructor
  · intro h
    obtain ⟨hint, hmem, k, rfl⟩ := exists_candidate_of_mem_chosen h
    cases k with
    | zero => exact ⟨hint, hmem, rfl⟩
    | succ k => exact absurd rfl (hw _ k)
  · rintro ⟨hint, hmem, rfl⟩
    exact identifier_mem_chosen hmem

end

end Names

end C

/-- **When the identifiers of a kernel are reserved names.** A keyword and a routine are chosen
exactly where a hint suggests them. A function that the kernel calls is chosen where a hint suggests
it, and where it is chosen it is a candidate for what a hint suggests. So the identifiers are apart
if the hints are. -/
theorem reserved_iff_suggested {target : Target} {sig : Signature} {body : Block} {text : String}
    (h : target.emitFunction sig body = .ok text) :
    ∃ s, target.accept body = .ok s ∧
      C.sourceWith target (C.Names.run (some sig) s.vars).of (some sig) s = text ∧
      (∀ w ∈ C.keywords ++ s.routines.map C.Routine.name, w ∈ C.Names.chosen sig s.vars ↔
        ∃ hint ∈ C.Names.hints sig s.vars, C.identifier hint = w) ∧
      (∀ w ∈ body.callees,
        ((∃ hint ∈ C.Names.hints sig s.vars, C.identifier hint = w) →
          w ∈ C.Names.chosen sig s.vars) ∧
        (w ∈ C.Names.chosen sig s.vars →
          ∃ hint ∈ C.Names.hints sig s.vars, ∃ k, w = C.candidate (C.identifier hint) k)) ∧
      ((∀ hint ∈ C.Names.hints sig s.vars,
          C.identifier hint ∉ C.keywords ++ s.routines.map C.Routine.name ∧
          ∀ k, C.candidate (C.identifier hint) k ∉ body.callees) →
        C.Apart (C.Names.chosen sig s.vars) s body) := by
  have hsource : target.source (some sig) body = .ok text := h
  obtain ⟨s, hs, htext⟩ := Target.source_eq_ok_iff.1 hsource
  have hreserved : ∀ w ∈ C.keywords ++ s.routines.map C.Routine.name,
      w ∈ C.Names.chosen sig s.vars ↔
        ∃ hint ∈ C.Names.hints sig s.vars, C.identifier hint = w := by
    intro w hw
    refine C.Names.mem_chosen_iff (C.candidate_ne_of_reserved ?_)
    have hroutines : s.routines.map C.Routine.name ⊆ C.Routine.all.map C.Routine.name :=
      List.map_subset _ (List.filter_subset_self _)
    exact List.append_subset.2 ⟨List.subset_append_left _ _,
      List.subset_append_of_subset_right _ hroutines⟩ hw
  refine ⟨s, hs, htext, hreserved, fun w _ => ⟨?_, C.Names.exists_candidate_of_mem_chosen⟩,
    fun hapart w hw => ?_⟩
  · rintro ⟨hint, hmem, rfl⟩
    exact C.Names.identifier_mem_chosen hmem
  · have hnone : w ∉ C.keywords ++ s.routines.map C.Routine.name := by
      intro hmem
      obtain ⟨hint, hhint, rfl⟩ := (hreserved w hmem).1 hw
      exact (hapart hint hhint).1 hmem
    rw [List.mem_append, not_or] at hnone
    refine ⟨hnone.1, hnone.2, fun hcall => ?_⟩
    obtain ⟨hint, hhint, k, rfl⟩ := C.Names.exists_candidate_of_mem_chosen hw
    exact (hapart hint hhint).2 k hcall

/-- A kernel with the name of a routine, over a buffer with the name of a keyword and a number with
the name of a function. -/
def clashingSignature : Signature :=
  ⟨"stagir_floordiv", [⟨⟨0, "int", .float32⟩, []⟩], [⟨1, "f", .int32⟩]⟩

/-- What the function answers goes to the element at half of the number. -/
def clashingBody : Block :=
  .store ⟨0, "int", .float32⟩ [.binary .floorDiv (.var ⟨1, "f", .int32⟩) (.int 2)]
    (.call .float32 "f" [])

theorem reserved_iff_suggested_clashing : ∃ s, Target.portable.accept clashingBody = .ok s ∧
    ("int" ∈ C.Names.chosen clashingSignature s.vars ∧ "int" ∈ C.keywords) ∧
    ("stagir_floordiv" ∈ C.Names.chosen clashingSignature s.vars ∧
      "stagir_floordiv" ∈ s.routines.map C.Routine.name) ∧
    ("f" ∈ C.Names.chosen clashingSignature s.vars ∧ "f" ∈ clashingBody.callees) := by
  obtain ⟨text, htext⟩ : ∃ text,
      Target.portable.emitFunction clashingSignature clashingBody = .ok text := ⟨_, rfl⟩
  obtain ⟨s, hs, -, hreserved, hcallees, -⟩ := reserved_iff_suggested htext
  obtain rfl := Except.ok.inj hs
  have hint : "int" ∈ C.keywords := by decide
  have hroutine : "stagir_floordiv" ∈ [C.Routine.floorDiv].map C.Routine.name := by decide
  have hcallee : "f" ∈ clashingBody.callees := by decide
  refine ⟨_, rfl, ⟨(hreserved _ (List.mem_append_left _ hint)).2 ⟨"int", ?_, ?_⟩, hint⟩,
    ⟨(hreserved _ (List.mem_append_right _ hroutine)).2 ⟨"stagir_floordiv", ?_, ?_⟩, hroutine⟩,
    ⟨(hcallees _ hcallee).1 ⟨"f", ?_, ?_⟩, hcallee⟩⟩
  all_goals decide

theorem not_names_apart : ¬∀ (sig : Signature) (body : Block) (text : String),
    Target.portable.emitFunction sig body = .ok text →
      ∃ s, Target.portable.accept body = .ok s ∧ C.Apart (C.Names.chosen sig s.vars) s body := by
  intro hapart
  obtain ⟨s, hs, h⟩ := hapart clashingSignature clashingBody _ rfl
  obtain rfl := Except.ok.inj hs
  have hchosen : "int" ∈ C.Names.chosen clashingSignature
      [⟨0, "int", .float32⟩, ⟨1, "f", .int32⟩] := by decide
  exact (h "int" hchosen).1 (by decide)

end LoopNest
