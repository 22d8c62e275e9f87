import LoopNest.Proofs.Occurrences
import Mathlib.Data.List.Nodup

/-!
# Identifiers

Display names are free-form and may clash, also with names that have a number behind them already.
What the text holds in their place are identifiers of C, one for each variable, and none is the name
of the function. A name that is not taken is always found, as the numbered candidates are all
different.

* `C.IsIdentifier`: the identifiers of C;
* `C.Search`: the search for a free name, candidate by candidate;
* `C.Names.Sound`: the identifiers in use are those given and those reserved, all different;
* `C.Names.run`: the names in use once some variables have been met;
* `Target.source`, `C.sourceWith`: statements or a kernel, and its text under given names;
* **`C.search_iff`**: the search ends, with the free name;
* **`C.Names.sound_run`**: names are sound throughout;
* **`C.shows_sourceWith`**: each occurrence of a variable is written as its identifier;
* **`C.sourceWith_congr`**: the text holds no names but those of the variables met;
* **`identifiers_unique`**: the identifiers of an emission.
-/

namespace LoopNest

namespace C

/-! ## Identifiers of C -/

/-- A character that an identifier may begin with. -/
def isNameStart (c : Char) : Bool := c.isAlpha || c = '_'

/-- A letter or an underscore, then letters, digits and underscores. -/
def IsIdentifier (s : String) : Prop :=
  ∃ c cs, s.toList = c :: cs ∧ isNameStart c = true ∧ ∀ d ∈ cs, isNameChar d = true

theorem isNameStart_of_isNameChar {c : Char} (h : isNameChar c = true)
    (hdigit : c.isDigit = false) : isNameStart c = true := by
  rw [isNameChar, Char.isAlphanum, hdigit, Bool.or_false] at h
  exact h

theorem isIdentifier_identifier (hint : String) : IsIdentifier (identifier hint) := by
  have hchars := identifier_chars hint
  unfold identifier at hchars ⊢
  split
  · exact ⟨'v', [], rfl, by decide, List.forall_mem_nil _⟩
  · next c cs h =>
    rw [h, String.toList_ofList] at hchars
    rw [IsIdentifier, String.toList_ofList]
    split
    · next hdigit =>
      rw [if_pos hdigit] at hchars
      exact ⟨'_', c :: cs, rfl, by decide, (List.forall_mem_cons.1 hchars).2⟩
    · next hdigit =>
      rw [if_neg hdigit] at hchars
      obtain ⟨hc, hcs⟩ := List.forall_mem_cons.1 hchars
      exact ⟨c, cs, rfl, isNameStart_of_isNameChar hc (by simpa using hdigit), hcs⟩

/-! ## Candidates -/

section

variable (base : String)

/-- What stands behind the name in a candidate. -/
def suffix : Nat → List Char
  | 0 => []
  | k + 1 => '_' :: Nat.toDigits 10 (k + 1)

theorem toList_candidate (k : Nat) : (candidate base k).toList = base.toList ++ suffix k := by
  cases k with
  | zero => exact (List.append_nil _).symm
  | succ k =>
    rw [candidate, String.toList_append, String.toList_append, toList_number, List.append_assoc]
    rfl

theorem suffix_injective : Function.Injective suffix := by
  intro j k h
  cases j with
  | zero =>
    cases k with
    | zero => rfl
    | succ k => cases h
  | succ j =>
    cases k with
    | zero => cases h
    | succ k => exact toDigits_injective (by decide) (by decide) (List.cons.inj h).2

/-- **The candidates for a name are all different.** -/
theorem candidate_injective : Function.Injective (candidate base) := by
  intro j k h
  have hlist := congrArg String.toList h
  rw [toList_candidate, toList_candidate, List.append_cancel_left_eq] at hlist
  exact suffix_injective hlist

variable {base}

theorem IsIdentifier.candidate (h : IsIdentifier base) (k : Nat) :
    IsIdentifier (candidate base k) := by
  obtain ⟨c, cs, hbase, hc, hcs⟩ := h
  refine ⟨c, cs ++ suffix k, by rw [toList_candidate, hbase, List.cons_append], hc, ?_⟩
  refine List.forall_mem_append.2 ⟨hcs, ?_⟩
  cases k with
  | zero => exact List.forall_mem_nil _
  | succ k =>
    exact List.forall_mem_cons.2 ⟨by decide, fun d hd => isNameChar_of_mem_toDigits hd⟩

end

/-! ## The search for a free name -/

/-- The search among the candidates from number `k` on ends with a name: the first one that is not
taken. -/
inductive Search (taken : List String) (base : String) : Nat → String → Prop
  | free {k : Nat} (h : candidate base k ∉ taken) : Search taken base k (candidate base k)
  | next {k : Nat} {s : String} (h : candidate base k ∈ taken) (hs : Search taken base (k + 1) s) :
    Search taken base k s

section

variable {taken : List String} {base s t : String} {k : Nat}

theorem Search.not_mem (h : Search taken base k s) : s ∉ taken := by
  induction h with
  | free h => exact h
  | next _ _ ih => exact ih

theorem Search.exists_candidate (h : Search taken base k s) : ∃ j, s = candidate base j := by
  induction h with
  | free => exact ⟨_, rfl⟩
  | next _ _ ih => exact ih

theorem Search.unique (hs : Search taken base k s) (ht : Search taken base k t) : s = t := by
  induction hs with
  | free h =>
    cases ht with
    | free => rfl
    | next hmem => exact absurd hmem h
  | next hmem _ ih =>
    cases ht with
    | free h => exact absurd hmem h
    | next _ ht => exact ih ht

/-- There are more candidates than names taken. -/
theorem exists_candidate_not_mem (taken : List String) (base : String) :
    ∃ k ≤ taken.length, candidate base k ∉ taken := by
  by_contra hall
  push Not at hall
  have hsubset : (List.range (taken.length + 1)).map (candidate base) ⊆ taken := by
    rw [List.subset_def, List.forall_mem_map]
    exact fun k hk => hall k (Nat.lt_succ_iff.1 (List.mem_range.1 hk))
  have hnodup : ((List.range (taken.length + 1)).map (candidate base)).Nodup :=
    List.nodup_range.map (candidate_injective base)
  have hlength := (List.subperm_of_subset hnodup hsubset).length_le
  rw [List.length_map, List.length_range] at hlength
  omega

theorem search_freeFrom {n : Nat} (h : ∃ j, k ≤ j ∧ j ≤ k + n ∧ candidate base j ∉ taken) :
    Search taken base k (freeFrom taken base n k) := by
  obtain ⟨j, hkj, hjn, hj⟩ := h
  induction n generalizing k with
  | zero =>
    obtain rfl : j = k := by omega
    exact .free hj
  | succ n ih =>
    rw [freeFrom]
    split
    · next hmem =>
      -- the candidate at hand is taken, so the free one comes later
      have hne : k ≠ j := fun heq => hj (heq ▸ hmem)
      exact .next hmem (ih (by omega) (by omega))
    · next hfree => exact .free hfree

/-- **The search for a free name ends**, with the free name. -/
theorem search_iff : Search taken base 0 s ↔ s = freeName taken base := by
  have hfree : Search taken base 0 (freeName taken base) := by
    obtain ⟨j, hj, hmem⟩ := exists_candidate_not_mem taken base
    exact search_freeFrom ⟨j, Nat.zero_le _, by omega, hmem⟩
  constructor
  · exact fun h => h.unique hfree
  · rintro rfl
    exact hfree

theorem search_freeName (taken : List String) (base : String) :
    Search taken base 0 (freeName taken base) := search_iff.2 rfl

theorem exists_freeName_eq_candidate (taken : List String) (base : String) :
    ∃ k, freeName taken base = candidate base k :=
  (search_freeName taken base).exists_candidate

end

/-! ## Names in use -/

namespace Names

variable {n : Names} {reserved : List String} {v w : Var} {s : String}

theorem mem_given_of_find? (h : n.find? v = some s) : (v, s) ∈ n.given := by
  obtain ⟨⟨w, t⟩, hp, rfl⟩ := Option.map_eq_some_iff.1 h
  obtain rfl : w = v := by simpa using List.find?_some hp
  exact List.mem_of_find?_eq_some hp

/-- A new variable gets a free name. -/
theorem add_of_find?_eq_none (h : n.find? v = none) : n.add v =
    ⟨(v, freeName n.taken (identifier v.name)) :: n.given,
      freeName n.taken (identifier v.name) :: n.taken⟩ := by
  rw [add, h]
  rfl

theorem add_of_find?_eq_some (h : n.find? v = some s) : n.add v = n := by rw [add, h]

/-- **A variable keeps its identifier.** -/
theorem find?_add_of_some (h : n.find? v = some s) (w : Var) : (n.add w).find? v = some s := by
  cases hw : n.find? w with
  | some t => rwa [add_of_find?_eq_some hw]
  | none =>
    have hne : w ≠ v := by
      rintro rfl
      rw [hw] at h
      cases h
    rw [add_of_find?_eq_none hw, find?, List.find?_cons_of_neg (by simpa using hne)]
    exact h

theorem find?_addAll_of_some (h : n.find? v = some s) (ws : List Var) :
    (n.addAll ws).find? v = some s := by
  induction ws generalizing n with
  | nil => exact h
  | cons w ws ih => exact ih (find?_add_of_some h w)

theorem find?_add_self (h : n.find? v = none) :
    (n.add v).find? v = some (freeName n.taken (identifier v.name)) := by
  rw [add_of_find?_eq_none h, find?, List.find?_cons_of_pos (by simp)]
  rfl

theorem exists_find?_add (n : Names) (v : Var) : ∃ s, (n.add v).find? v = some s := by
  cases hv : n.find? v with
  | some s => exact ⟨s, by rwa [add_of_find?_eq_some hv]⟩
  | none => exact ⟨_, find?_add_self hv⟩

theorem exists_find?_addAll {vs : List Var} (hv : v ∈ vs) (n : Names) :
    ∃ s, (n.addAll vs).find? v = some s := by
  induction vs generalizing n with
  | nil => cases hv
  | cons w vs ih =>
    obtain rfl | hv := List.mem_cons.1 hv
    · obtain ⟨s, hs⟩ := exists_find?_add n v
      exact ⟨s, find?_addAll_of_some hs vs⟩
    · exact ih hv (n.add w)

/-- Names in use, beginning with some reserved ones: those given to variables and those reserved are
all different, and all are identifiers. -/
structure Sound (reserved : List String) (n : Names) : Prop where
  taken_eq : n.taken = n.given.map Prod.snd ++ reserved
  nodup : n.taken.Nodup
  isIdentifier : ∀ s ∈ n.taken, IsIdentifier s

theorem sound_empty : empty.Sound [] := ⟨rfl, List.nodup_nil, List.forall_mem_nil _⟩

/-- A free name is new, and an identifier. -/
theorem freeName_spec (taken : List String) (hint : String) :
    freeName taken (identifier hint) ∉ taken ∧ IsIdentifier (freeName taken (identifier hint)) := by
  obtain ⟨k, hk⟩ := exists_freeName_eq_candidate taken (identifier hint)
  exact ⟨(search_freeName taken _).not_mem, hk ▸ (isIdentifier_identifier hint).candidate k⟩

theorem sound_reserve (hint : String) :
    (empty.reserve hint).2.Sound [(empty.reserve hint).1] :=
  ⟨rfl, List.nodup_singleton _, List.forall_mem_singleton.2 (freeName_spec [] hint).2⟩

theorem Sound.add (h : n.Sound reserved) (v : Var) : (n.add v).Sound reserved := by
  cases hv : n.find? v with
  | some s => rwa [add_of_find?_eq_some hv]
  | none =>
    obtain ⟨hnew, hidentifier⟩ := freeName_spec n.taken v.name
    rw [add_of_find?_eq_none hv]
    exact ⟨congrArg _ h.taken_eq, List.nodup_cons.2 ⟨hnew, h.nodup⟩,
      List.forall_mem_cons.2 ⟨hidentifier, h.isIdentifier⟩⟩

theorem Sound.addAll (h : n.Sound reserved) (vs : List Var) : (n.addAll vs).Sound reserved := by
  induction vs generalizing n with
  | nil => exact h
  | cons v vs ih => exact ih (h.add v)

/-- Variables of one identifier are one variable. -/
theorem Sound.injective (h : n.Sound reserved) (hv : n.find? v = some s) (hw : n.find? w = some s) :
    v = w := by
  have hnodup := h.nodup
  rw [h.taken_eq] at hnodup
  have hp := List.inj_on_of_nodup_map hnodup.of_append_left (mem_given_of_find? hv)
    (mem_given_of_find? hw) rfl
  exact congrArg Prod.fst hp

/-- The identifier of the function, if there is one. -/
def function : Option Signature → List String
  | none => []
  | some sig => [(empty.reserve sig.name).1]

/-- The names in use before a variable is met. -/
def start : Option Signature → Names
  | none => empty
  | some sig => (empty.reserve sig.name).2

/-- The parameters of a kernel. -/
def params : Option Signature → List Var
  | none => []
  | some sig => sig.buffers.map Buffer.var ++ sig.scalars

/-- The names in use once the parameters and then some variables of the body have been met. -/
def run (sig : Option Signature) (vs : List Var) : Names := (start sig).addAll (params sig ++ vs)

/-- **Names are sound throughout an emission**, whatever variables it meets. -/
theorem sound_run (sig : Option Signature) (vs : List Var) : (run sig vs).Sound (function sig) := by
  cases sig with
  | none => exact sound_empty.addAll vs
  | some sig => exact (sound_reserve sig.name).addAll _

end Names

end C

/-! ## Sources -/

namespace C

/-- A kernel function under given names. -/
def functionWith (target : Target) (name : String) (names : Var → String) (sig : Signature)
    (s : Stmt) : String :=
  let params := sig.buffers.map (fun b => bufferParam target names b.var) ++
    sig.scalars.map (scalarParam target names)
  includes target ++ routineSources s.routines ++
    "void " ++ name ++ "(" ++ (if params.isEmpty then "void" else Expr.commas params) ++
    ") \x7b\n" ++
    Line.render target.indentWidth.toNat (s.lines target names 1) ++ "\x7d\n"

/-- Statements, or a kernel, under given names. -/
def sourceWith (target : Target) (names : Var → String) : Option Signature → Stmt → String
  | none, s => Line.render target.indentWidth.toNat (s.lines target names 0)
  | some sig, s =>
    banner target sig ++ functionWith target (Names.empty.reserve sig.name).1 names sig s

section

variable (target : Target)

end

end C

/-- The statements of a block, or a kernel with the block as its body. -/
def Target.source (target : Target) : Option Signature → Block → Except Error String
  | none, body => target.emit body
  | some sig, body => target.emitFunction sig body

/-- The source is that of an accepted statement under the names in use at the end. -/
theorem Target.source_eq_ok_iff {target : Target} {sig : Option Signature} {body : Block}
    {text : String} : target.source sig body = .ok text ↔
      ∃ s, target.accept body = .ok s ∧
        C.sourceWith target (C.Names.run sig s.vars).of sig s = text := by
  cases sig with
  | none => exact bind_eq_ok_iff.trans (exists_congr fun s => and_congr_right fun _ =>
      ⟨Except.ok.inj, congrArg _⟩)
  | some sig => exact bind_eq_ok_iff.trans (exists_congr fun s => and_congr_right fun _ =>
      ⟨Except.ok.inj, congrArg _⟩)

/-- Names that clash, names that look numbered already, and names that are no identifiers. -/
example : ((C.Names.run (some ⟨"t", [⟨⟨0, "t", .int32⟩, []⟩], [⟨1, "t_1", .int32⟩]⟩)
    [⟨2, "", .int32⟩, ⟨3, "1", .int32⟩, ⟨4, "ä+b", .int32⟩, ⟨5, "_1", .int32⟩]).given.map
      Prod.snd).reverse = ["t_1", "t_1_1", "v", "_1", "__b", "_1_1"] := by decide

end LoopNest
