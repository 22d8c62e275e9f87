import LoopNest.Proofs.Attempts
import LoopNest.Proofs.ScopedTrees
import Mathlib.Data.List.Chain

/-!
# The order of scopes in a tree

Every scope but the root is the child of an earlier one, and of one only. The open scopes lie in
each other, each the last child of the one around it, so a new scope comes after all others, and a
walk from the root meets the scopes in the order of their numbers. This holds of every tree that
comes about, whatever was tried and with whatever handles, and lowering is such a walk.

* `ScopeTree.Visits`, `ScopeTree.Lowers`: the scopes that a walk meets, and that lowering meets;
* `ScopeTree.Grown`, **`ScopeTree.Grown.addStatement`**, **`ScopeTree.Grown.enter`**: what every
  step keeps;
* `ScopeTree.Arranged`, **`ScopeTree.Grown.arranged`**: where every scope lies;
* **`scopes_arranged`**: all trees, and how they are lowered.
-/

namespace LoopNest

/-- A scope that may be open, and have scopes inside it. -/
def ScopeForm.Nests : ScopeForm → Prop
  | alloc _ _ _ | loop _ _ | bind _ => True
  | root | statement _ => False

namespace ScopeTree

variable {t u : ScopeTree}

/-! ## Walks -/

/-- From some scopes a walk meets these scopes: each before those inside it. -/
inductive Visits (t : ScopeTree) : List Nat → List Nat → Prop where
  | nil : Visits t [] []
  | cons {id : Nat} {e : ScopeEntry} {ids vs ws : List Nat} (he : t.entries[id]? = some e)
    (hinside : Visits t e.children vs) (hafter : Visits t ids ws) :
    Visits t (id :: ids) (id :: (vs ++ ws))

namespace Visits

variable {ids js vs ws : List Nat}

theorem lt_size (h : t.Visits ids vs) : ∀ id ∈ vs, id < t.size := by
  induction h with
  | nil => exact List.forall_mem_nil _
  | cons he _ _ ihi iha =>
    exact List.forall_mem_cons.2 ⟨lt_size_of_entry he, List.forall_mem_append.2 ⟨ihi, iha⟩⟩

theorem unique (hv : t.Visits ids vs) (hw : t.Visits ids ws) : vs = ws := by
  induction hv generalizing ws with
  | nil =>
    cases hw
    rfl
  | cons he _ _ ihi iha =>
    cases hw with
    | cons he' hi ha =>
      obtain rfl := Option.some.inj (he.symm.trans he')
      rw [ihi hi, iha ha]

theorem append (hv : t.Visits ids vs) (hw : t.Visits js ws) : t.Visits (ids ++ js) (vs ++ ws) := by
  induction hv with
  | nil => exact hw
  | @cons id e ids vs' ws' he hi _ _ iha =>
    rw [List.cons_append, List.cons_append, List.append_assoc]
    exact .cons he hi iha

theorem of_append (h : t.Visits (ids ++ js) vs) :
    ∃ v w, vs = v ++ w ∧ t.Visits ids v ∧ t.Visits js w := by
  induction ids generalizing vs with
  | nil => exact ⟨[], vs, rfl, .nil, h⟩
  | cons id ids ih =>
    cases h with
    | @cons _ e _ x y he hi ha =>
      obtain ⟨v, w, rfl, hv, hw⟩ := ih ha
      exact ⟨id :: (x ++ v), w, by simp, .cons he hi hv, hw⟩

/-- A walk does not depend on scopes that it does not meet. -/
theorem congr (h : t.Visits ids vs) (heq : ∀ id ∈ vs, u.entries[id]? = t.entries[id]?) :
    u.Visits ids vs := by
  induction h with
  | nil => exact .nil
  | cons he _ _ ihi iha =>
    obtain ⟨hid, hrest⟩ := List.forall_mem_cons.1 heq
    obtain ⟨hinside, hafter⟩ := List.forall_mem_append.1 hrest
    exact .cons (hid.trans he) (ihi hinside) (iha hafter)

theorem sublist (h : t.Visits ids vs) : ids.Sublist vs := by
  induction h with
  | nil => exact List.Sublist.refl []
  | @cons id e ids vs ws _ _ _ _ iha =>
    exact (iha.trans (List.sublist_append_right vs ws)).cons_cons id

/-- Before the scopes inside it a scope is met, and these in their order. -/
theorem entry_sublist (h : t.Visits ids vs) {id : Nat} (hid : id ∈ vs) {e : ScopeEntry}
    (he : t.entries[id]? = some e) : (id :: e.children).Sublist vs := by
  induction h with
  | nil => exact nomatch hid
  | @cons id' e' ids vs ws he' hi ha ihi iha =>
    rcases List.mem_cons.1 hid with rfl | hid
    · obtain rfl := Option.some.inj (he.symm.trans he')
      exact (hi.sublist.trans (List.sublist_append_left vs ws)).cons_cons id
    · refine List.Sublist.cons id' ?_
      rcases List.mem_append.1 hid with hid | hid
      · exact (ihi hid).trans (List.sublist_append_left vs ws)
      · exact (iha hid).trans (List.sublist_append_right vs ws)

end Visits

/-- The scopes inside one. -/
def childrenOf (t : ScopeTree) (id : Nat) : List Nat :=
  (t.entries[id]?.map ScopeEntry.children).getD []

/-- A walk meets the scopes from which it starts, and those inside the scopes that it meets. -/
theorem Visits.perm {ids vs : List Nat} (h : t.Visits ids vs) :
    (ids ++ vs.flatMap t.childrenOf).Perm vs := by
  induction h with
  | nil => exact List.Perm.nil
  | @cons id e ids vs ws he _ _ ihi iha =>
    have hchildren : t.childrenOf id = e.children := by
      rw [childrenOf, he]
      rfl
    rw [List.flatMap_cons, List.flatMap_append, hchildren, List.perm_iff_count]
    intro a
    have hi := ihi.count_eq a
    have ha := iha.count_eq a
    simp only [List.cons_append, List.count_cons, List.count_append] at hi ha ⊢
    omega

/-! ## Lowering as a walk -/

/-- From some scopes lowering meets these scopes, and comes to this result: the scopes inside one
are lowered before it is made a block, and the first failure is the end. -/
inductive Lowers (t : ScopeTree) : List Nat → List Nat → Except Error (List Block) → Prop where
  | nil : Lowers t [] [] (.ok [])
  | stop {id : Nat} {e : ScopeEntry} {ids vs : List Nat} {x : Except Error (List Block)}
    {err : Error} (he : t.entries[id]? = some e) (hinside : Lowers t e.children vs x)
    (hstop : x >>= e.form.wrap = .error err) : Lowers t (id :: ids) (id :: vs) (.error err)
  | cons {id : Nat} {e : ScopeEntry} {ids vs ws : List Nat} {x y : Except Error (List Block)}
    {b : Block} (he : t.entries[id]? = some e) (hinside : Lowers t e.children vs x)
    (hblock : x >>= e.form.wrap = .ok b) (hafter : Lowers t ids ws y) :
    Lowers t (id :: ids) (id :: (vs ++ ws)) (y.map fun bs => b :: bs)

/-- Lowering ends on every walk. It meets the scopes of the walk in their order, all of them unless
it fails. -/
theorem Visits.lowers {ids vs : List Nat} (h : t.Visits ids vs) : ∃ us x, t.Lowers ids us x ∧
    us <+: vs ∧ ∀ bs, x = .ok bs → us = vs := by
  induction h with
  | nil => exact ⟨[], .ok [], .nil, List.prefix_rfl, fun _ _ => rfl⟩
  | @cons id e ids vs ws he _ _ ihi iha =>
    obtain ⟨us, x, hx, hprefix, hall⟩ := ihi
    cases hblock : x >>= e.form.wrap with
    | error err =>
      refine ⟨id :: us, _, .stop he hx hblock, ?_, fun _ h => (nomatch h)⟩
      exact List.cons_prefix_cons.2 ⟨rfl, hprefix.trans (List.prefix_append vs ws)⟩
    | ok b =>
      obtain ⟨bs, hbs, -⟩ := bind_eq_ok_iff.1 hblock
      obtain ⟨us', y, hy, hprefix', hall'⟩ := iha
      obtain rfl := hall bs hbs
      refine ⟨_, _, .cons he hx hblock hy, ?_, fun cs hcs => ?_⟩
      · exact List.cons_prefix_cons.2 ⟨rfl, (List.prefix_append_right_inj us).2 hprefix'⟩
      · cases y with
        | ok bs => rw [hall' bs rfl]
        | error err => exact nomatch hcs

theorem lowerAll_singleton (s : Scope) :
    Scope.lowerAll [s] = s.lower.map fun b => [b] := by
  rw [Scope.lowerAll]
  cases s.lower <;> rfl

namespace Lowers

variable {ids us vs : List Nat} {x y : Except Error (List Block)}

theorem unique (hx : t.Lowers ids us x) (hy : t.Lowers ids vs y) : vs = us ∧ y = x := by
  induction hx generalizing vs y with
  | nil =>
    cases hy
    exact ⟨rfl, rfl⟩
  | stop he _ hstop ih =>
    cases hy with
    | stop he' hi hstop' =>
      obtain rfl := Option.some.inj (he.symm.trans he')
      obtain ⟨rfl, rfl⟩ := ih hi
      exact ⟨rfl, congrArg Except.error (Except.error.inj (hstop'.symm.trans hstop))⟩
    | cons he' hi hblock _ =>
      obtain rfl := Option.some.inj (he.symm.trans he')
      obtain ⟨rfl, rfl⟩ := ih hi
      exact nomatch hblock.symm.trans hstop
  | cons he _ hblock _ ihi iha =>
    cases hy with
    | stop he' hi hstop =>
      obtain rfl := Option.some.inj (he.symm.trans he')
      obtain ⟨rfl, rfl⟩ := ihi hi
      exact nomatch hblock.symm.trans hstop
    | cons he' hi hblock' ha =>
      obtain rfl := Option.some.inj (he.symm.trans he')
      obtain ⟨rfl, rfl⟩ := ihi hi
      obtain ⟨rfl, rfl⟩ := iha ha
      obtain rfl := Except.ok.inj (hblock'.symm.trans hblock)
      exact ⟨rfl, rfl⟩

/-- The record read to a depth that is no less than the number of scopes met is lowered so. -/
theorem lowerAll_eq (h : t.Lowers ids us x) {n : Nat} (hn : us.length ≤ n) :
    Scope.lowerAll (ids.map (t.scopeTo n)) = x := by
  induction h generalizing n with
  | nil => rfl
  | @stop id e ids vs x err he _ hstop ih =>
    rw [List.length_cons] at hn
    obtain ⟨m, rfl⟩ : ∃ m, n = m + 1 := ⟨n - 1, by omega⟩
    have hlower : (t.scopeTo (m + 1) id).lower = .error err := by
      rw [scopeTo, he]
      dsimp only
      rw [Scope.lower, ih (by omega), hstop]
    rw [List.map_cons, Scope.lowerAll, hlower]
    rfl
  | @cons id e ids vs ws x y b he _ hblock _ ihi iha =>
    rw [List.length_cons, List.length_append] at hn
    obtain ⟨m, rfl⟩ : ∃ m, n = m + 1 := ⟨n - 1, by omega⟩
    have hlower : (t.scopeTo (m + 1) id).lower = .ok b := by
      rw [scopeTo, he]
      dsimp only
      rw [Scope.lower, ihi (by omega), hblock]
    rw [List.map_cons, Scope.lowerAll, hlower, iha (by omega)]
    cases y <;> rfl

end Lowers

/-! ## What every step keeps -/

/-- A walk from the root meets the scopes in order. Only the first is a root, nothing is inside
a statement, and each open scope is the last one in the open scope around it. -/
structure Grown (t : ScopeTree) : Prop where
  ordered : t.Ordered
  visits : t.Visits [0] (List.range t.size)
  root : ∀ (id : Nat) (e : ScopeEntry), t.entries[id]? = some e → (e.form = .root ↔ id = 0)
  statement : ∀ (id : Nat) (e : ScopeEntry) (b : Block), t.entries[id]? = some e →
    e.form = .statement b → e.children = [] ∧ id ∉ t.opened
  last : t.opened.IsChain fun inner outer =>
    ∃ e, t.entries[outer]? = some e ∧ e.children.getLast? = some inner

section AddChild

variable {form : ScopeForm} {implicit : Bool}

variable (form implicit) in
/-- A walk that does not meet the innermost open scope does not meet a new scope. -/
theorem Visits.addChild {ids vs : List Nat} (h : t.Visits ids vs) (hp : t.innermost ∉ vs) :
    (t.addChild form implicit).Visits ids vs := by
  refine h.congr fun id hid => ?_
  rw [getElem?_addChild, if_neg (Nat.ne_of_lt (h.lt_size id hid)), if_neg]
  rintro rfl
  exact hp hid

variable (t form implicit) in
/-- A walk from a scope meets the innermost open one, and a new scope after all others. -/
def Ends (id : Nat) : Prop := ∀ vs, t.Visits [id] vs → vs.Nodup →
  t.innermost ∈ vs ∧ (t.addChild form implicit).Visits [id] (vs ++ [t.size])

variable (form implicit) in
theorem visits_new : (t.addChild form implicit).Visits [t.size] [t.size] := by
  have hentry : (t.addChild form implicit).entries[t.size]? = some ⟨form, implicit, []⟩ := by
    rw [getElem?_addChild, if_pos rfl]
  exact .cons hentry .nil .nil

theorem ends_innermost (hp : t.innermost < t.size) : t.Ends form implicit t.innermost := by
  intro vs hvs hnodup
  cases hvs with
  | @cons _ e _ ws _ he hi hnil =>
    cases hnil
    rw [List.append_nil] at hnodup ⊢
    refine ⟨List.mem_cons_self, ?_⟩
    have hentry : (t.addChild form implicit).entries[t.innermost]? =
        some (e.adopt [t.size]) := by
      rw [getElem?_addChild, if_neg (Nat.ne_of_lt hp), if_pos rfl, he]
      rfl
    have hchildren := (hi.addChild form implicit (List.nodup_cons.1 hnodup).1).append
      (visits_new form implicit)
    simpa using Visits.cons hentry hchildren .nil

/-- What holds of a scope holds of the one of which it is the last. -/
theorem Ends.outer {inner outer : Nat} (h : t.Ends form implicit inner)
    (hlast : ∃ e, t.entries[outer]? = some e ∧ e.children.getLast? = some inner) :
    t.Ends form implicit outer := by
  obtain ⟨e, he, hlast⟩ := hlast
  intro vs hvs hnodup
  cases hvs with
  | @cons _ e' _ ws _ he' hi hnil =>
    cases hnil
    obtain rfl := Option.some.inj (he.symm.trans he')
    obtain ⟨before, hchildren⟩ := List.getLast?_eq_some_iff.1 hlast
    rw [hchildren] at hi
    obtain ⟨w, v, rfl, hw, hv⟩ := hi.of_append
    rw [List.append_nil] at hnodup ⊢
    obtain ⟨hnot, hws⟩ := List.nodup_cons.1 hnodup
    obtain ⟨-, hvnodup, hdisjoint⟩ := List.nodup_append.1 hws
    obtain ⟨hmem, hv'⟩ := h v hv hvnodup
    have hpw : t.innermost ∉ w := fun hp => hdisjoint _ hp _ hmem rfl
    have hne : outer ≠ t.innermost := by
      rintro rfl
      exact hnot (List.mem_append_right _ hmem)
    have hentry : (t.addChild form implicit).entries[outer]? = some e := by
      rw [getElem?_addChild, if_neg (Nat.ne_of_lt (lt_size_of_entry he)), if_neg hne, he]
    refine ⟨List.mem_cons_of_mem _ (List.mem_append_right _ hmem), ?_⟩
    have hinside := (hw.addChild form implicit hpw).append hv'
    rw [← hchildren] at hinside
    simpa using Visits.cons hentry hinside .nil

variable (form implicit) in
/-- A walk from the root meets a new scope last. -/
theorem Grown.visits_addChild (ht : t.Grown) :
    (t.addChild form implicit).Visits [0] (List.range (t.addChild form implicit).size) := by
  have hp : t.innermost < t.size := ht.ordered.innermost_lt
  have hroot : t.Ends form implicit 0 := by
    refine ht.last.induction _ _ (fun inner outer hlast h => h.outer hlast) (fun hne => ?_) 0
      ht.ordered.root_mem
    have hhead : t.opened.head hne = t.innermost := by
      rw [innermost, List.headD_eq_head?_getD, List.head?_eq_some_head hne]
      rfl
    rw [hhead]
    exact ends_innermost hp
  rw [size_addChild, List.range_succ]
  exact (hroot _ ht.visits List.nodup_range).2

theorem size_pos_of_ordered (ht : t.Ordered) : 0 < t.size := ht.lt_size 0 ht.root_mem

/-- Only the first scope is a root still. -/
theorem Grown.root_addChild (ht : t.Grown) (hform : form ≠ .root) {id : Nat} {e : ScopeEntry}
    (he : (t.addChild form implicit).entries[id]? = some e) : e.form = .root ↔ id = 0 := by
  have hpos := size_pos_of_ordered ht.ordered
  rcases entry_of_addChild he with ⟨rfl, rfl⟩ | ⟨f, hf, hsame, -⟩
  · exact ⟨fun h => absurd h hform, fun h => absurd h hpos.ne'⟩
  · rw [hsame]
    exact ht.root id f hf

/-- Nothing is inside a statement still: a new scope is inside an open one. -/
theorem Grown.statement_addChild (ht : t.Grown) {id : Nat} {e : ScopeEntry} {b : Block}
    (he : (t.addChild form implicit).entries[id]? = some e) (hb : e.form = .statement b) :
    e.children = [] ∧ id ∉ t.opened := by
  rw [getElem?_addChild] at he
  split at he
  · next hid =>
    obtain rfl := Option.some.inj he
    exact ⟨rfl, fun h => absurd (ht.ordered.lt_size id h) (by omega)⟩
  · split at he
    · next hid =>
      obtain ⟨f, hf, rfl⟩ := Option.map_eq_some_iff.1 he
      exact absurd (hid ▸ ht.ordered.innermost_mem) (ht.statement id f b hf hb).2
    · exact ht.statement id e b he hb

/-- The scopes around the innermost open one are not changed. -/
theorem Grown.last_addChild (ht : t.Grown) : t.opened.IsChain fun inner outer => ∃ e,
    (t.addChild form implicit).entries[outer]? = some e ∧ e.children.getLast? = some inner := by
  refine ht.last.imp_of_mem_tail_imp ?_
  rintro inner outer - houter ⟨e, he, hlast⟩
  have hne : outer ≠ t.innermost := by
    have hdesc := ht.ordered.descending
    rw [innermost]
    cases hopened : t.opened with
    | nil => exact absurd (hopened ▸ houter) List.not_mem_nil
    | cons i is =>
      rw [hopened] at hdesc houter
      exact Nat.ne_of_lt ((List.pairwise_cons.1 hdesc).1 outer houter)
  refine ⟨e, ?_, hlast⟩
  rw [getElem?_addChild, if_neg (Nat.ne_of_lt (lt_size_of_entry he)), if_neg hne, he]

/-- **A statement is added.** -/
theorem Grown.addStatement (ht : t.Grown) (b : Block) : (t.addStatement b).Grown where
  ordered := ht.ordered.addStatement b
  visits := ht.visits_addChild _ _
  root _ _ he := ht.root_addChild (fun h : ScopeForm.statement b = .root => nomatch h) he
  statement _ _ _ he hb := ht.statement_addChild he hb
  last := ht.last_addChild

/-- **A scope is opened.** It is the last one in the scope that was innermost. -/
theorem Grown.enter (ht : t.Grown) (hform : form.Nests) (implicit : Bool) :
    (t.enter form implicit).Grown where
  ordered := ht.ordered.enter form implicit
  visits := (ht.visits_addChild form implicit).congr fun _ _ => rfl
  root _ _ he := ht.root_addChild (by rintro rfl; exact hform) he
  statement id e b he hb := by
    obtain ⟨hchildren, hopened⟩ := ht.statement_addChild he hb
    refine ⟨hchildren, fun h => ?_⟩
    rcases List.mem_cons.1 h with rfl | h
    · rcases entry_of_addChild he with ⟨-, rfl⟩ | ⟨f, hf, -⟩
      · obtain rfl : form = .statement b := hb
        exact hform
      · exact absurd (lt_size_of_entry hf) (lt_irrefl _)
    · exact hopened h
  last := by
    refine List.isChain_cons.2 ⟨fun p hp => ?_, ht.last_addChild⟩
    have hinner : p = t.innermost := by
      rw [innermost, List.headD_eq_head?_getD, hp]
      rfl
    have hlt : t.innermost < t.size := ht.ordered.innermost_lt
    obtain ⟨f, hf⟩ : ∃ f, t.entries[t.innermost]? = some f :=
      ⟨_, Array.getElem?_eq_getElem hlt⟩
    refine ⟨f.adopt [t.size], ?_, List.getLast?_concat⟩
    rw [hinner]
    exact getElem?_addChild.trans (by rw [if_neg (Nat.ne_of_lt hlt), if_pos rfl, hf]; rfl)

/-- **A scope is ended**, and the implicit ones inside it. -/
theorem Grown.close (ht : t.Grown) {id : Nat} (hu : t.close id = .ok u) : u.Grown := by
  obtain ⟨h0, -, rfl⟩ := close_eq_ok ht.ordered hu
  obtain ⟨-, hsuffix⟩ := opened_of_close hu
  refine ⟨ht.ordered.closed h0, ht.visits.congr fun _ _ => rfl, ht.root, fun i e b he hb => ?_,
    ht.last.suffix hsuffix⟩
  obtain ⟨hchildren, hopened⟩ := ht.statement i e b he hb
  exact ⟨hchildren, fun h => hopened (hsuffix.subset h)⟩

end AddChild

theorem grown_empty : empty.Grown where
  ordered := ordered_empty
  visits := by
    have hroot : empty.entries[0]? = some ⟨.root, false, []⟩ := rfl
    exact .cons hroot .nil .nil
  root id e he := by
    have hid := lt_size_of_entry he
    rw [entry_of_empty he]
    exact ⟨fun _ => Nat.lt_one_iff.1 hid, fun _ => rfl⟩
  statement id e b he hb := by
    rw [entry_of_empty he] at hb
    exact nomatch hb
  last := List.isChain_singleton 0

end ScopeTree

/-! ## Where every scope lies -/

theorem flatMap_range_getElem {α β : Type} (l : List α) (f : α → List β) :
    (List.range l.length).flatMap (fun i => (l[i]?.map f).getD []) = l.flatMap f := by
  induction l with
  | nil => rfl
  | cons a l ih =>
    rw [List.length_cons, List.range_succ_eq_map, List.flatMap_cons, List.flatMap_map,
      List.flatMap_cons, ← ih]
    rfl

namespace ScopeTree

variable {t : ScopeTree}

/-- Number `0` is the only root. Every other scope is inside exactly one scope, once, which is an
earlier one, and the scopes inside one are in order. Nothing is inside a statement, which is never
open. The outermost open scope is the root, and each other one is the last scope in the open scope
around it. -/
structure Arranged (t : ScopeTree) : Prop where
  size_pos : 0 < t.size
  root : ∀ (id : Nat) (e : ScopeEntry), t.entries[id]? = some e → (e.form = .root ↔ id = 0)
  once : ∀ id, 0 < id → id < t.size →
    (t.entries.toList.flatMap ScopeEntry.children).count id = 1
  child : ∀ (id : Nat) (e : ScopeEntry), t.entries[id]? = some e →
    ∀ c ∈ e.children, id < c ∧ c < t.size
  ascending : ∀ (id : Nat) (e : ScopeEntry), t.entries[id]? = some e →
    e.children.Pairwise (· < ·)
  statement : ∀ (id : Nat) (e : ScopeEntry) (b : Block), t.entries[id]? = some e →
    e.form = .statement b → e.children = [] ∧ id ∉ t.opened
  outermost : t.opened.getLast? = some 0
  last : t.opened.IsChain fun inner outer =>
    ∃ e, t.entries[outer]? = some e ∧ e.children.getLast? = some inner

/-- **A tree that is grown in order is arranged.** -/
theorem Grown.arranged (ht : t.Grown) : t.Arranged := by
  have hsub : ∀ (id : Nat) (e : ScopeEntry), t.entries[id]? = some e →
      (id :: e.children).Sublist (List.range t.size) := fun id e he =>
    ht.visits.entry_sublist (List.mem_range.2 (lt_size_of_entry he)) he
  have hpairwise : ∀ (id : Nat) (e : ScopeEntry), t.entries[id]? = some e →
      (id :: e.children).Pairwise (· < ·) := fun id e he =>
    List.pairwise_lt_range.sublist (hsub id e he)
  refine ⟨size_pos_of_ordered ht.ordered, ht.root, fun id h0 hid => ?_,
    fun id e he c hc => ⟨?_, ?_⟩, fun id e he => ?_, ht.statement, ?_, ht.last⟩
  · have hperm := ht.visits.perm.count_eq id
    have hall : (List.range t.size).flatMap t.childrenOf =
        t.entries.toList.flatMap ScopeEntry.children := by
      have hchildren : t.childrenOf =
          fun i => (t.entries.toList[i]?.map ScopeEntry.children).getD [] := by
        funext i
        rw [childrenOf, Array.getElem?_toList]
      rw [hchildren, size, ← Array.length_toList]
      exact flatMap_range_getElem t.entries.toList ScopeEntry.children
    rw [hall, List.count_append, List.count_eq_zero_of_not_mem (by simp; omega), zero_add,
      List.count_eq_one_of_mem List.nodup_range (List.mem_range.2 hid)] at hperm
    exact hperm
  · exact (List.pairwise_cons.1 (hpairwise id e he)).1 c hc
  · exact List.mem_range.1 ((hsub id e he).subset (List.mem_cons_of_mem id hc))
  · exact (List.pairwise_cons.1 (hpairwise id e he)).2
  · obtain ⟨inside, around, hopened⟩ := List.append_of_mem ht.ordered.root_mem
    have hdesc := hopened ▸ ht.ordered.descending
    obtain ⟨-, hcons, -⟩ := List.pairwise_append.1 hdesc
    -- there is no number below that of the root
    have hnone : around = [] := List.eq_nil_iff_forall_not_mem.2 fun s hs =>
      absurd ((List.pairwise_cons.1 hcons).1 s hs) (Nat.not_lt_zero s)
    rw [hopened, hnone, List.getLast?_concat]

end ScopeTree

/-! ## All trees -/

/-- What an operation does to the scopes: nothing, or it adds a statement, or opens a scope. -/
theorem Operation.nests_of_perform {t u : Trace} {o : Operation} {h? : Option OpenScope}
    (h : o.perform t = .ok (h?, u)) : u.tree = t.tree ∨
      (∃ b, u.tree = t.tree.addStatement b) ∨
      ∃ form implicit, form.Nests ∧ u.tree = t.tree.enter form implicit := by
  cases o with
  | newVar | bindView =>
    obtain ⟨-, rfl⟩ := Prod.mk.inj (Except.ok.inj h)
    exact .inl rfl
  | allocate shape storage type name | enterAlloc shape storage type name =>
    obtain ⟨-, rfl⟩ := Prod.mk.inj (Except.ok.inj h)
    exact .inr (.inr ⟨.alloc ⟨t.fresh, name, type⟩ shape storage, _, trivial, rfl⟩)
  | letVar name value =>
    obtain ⟨-, rfl⟩ := Prod.mk.inj (Except.ok.inj h)
    exact .inr (.inr ⟨.bind [⟨⟨t.fresh, name, value.type⟩, value⟩], _, trivial, rfl⟩)
  | enterLoop kind decl =>
    obtain ⟨r, hr, h⟩ := bind_eq_ok_iff.1 h
    obtain ⟨-, rfl⟩ := Prod.mk.inj (Except.ok.inj h)
    obtain ⟨parts, hparts, -⟩ := bind_eq_ok_iff.1 hr
    obtain rfl := Except.ok.inj ((Script.enterLoop_eq hparts kind t).symm.trans hr)
    exact .inr (.inr ⟨.loop kind _, _, trivial, rfl⟩)
  | store target selectors value =>
    obtain ⟨v, hv, h⟩ := bind_eq_ok_iff.1 h
    obtain ⟨-, rfl⟩ := Prod.mk.inj (Except.ok.inj h)
    obtain ⟨b, is, -, rfl⟩ := Trace.store_eq_ok_iff.1 hv
    exact .inr (.inl ⟨_, rfl⟩)
  | call | evaluate =>
    obtain ⟨-, rfl⟩ := Prod.mk.inj (Except.ok.inj h)
    exact .inr (.inl ⟨_, rfl⟩)
  | fill | load => exact nomatch h

/-- **Whatever is attempted, with whatever handles, the tree is grown in order.** -/
theorem Attempts.grown_play (as : Attempts) {S : Desk} (hS : S.trace.tree.Grown) :
    (as.play S).trace.tree.Grown := by
  refine as.play_induction (P := fun t _ => t.tree.Grown) (K := []) ?_ ?_ ?_ hS
  · exact fun _ _ _ _ ht => ht
  · intro t K o h? u ht hu
    rcases Operation.nests_of_perform hu with htree | ⟨b, htree⟩ | ⟨form, implicit, hform, htree⟩
    · rwa [htree]
    · exact htree ▸ ht.addStatement b
    · exact htree ▸ ht.enter hform implicit
  · intro t K h u ht _ hu
    obtain ⟨tree, htree, hu⟩ := bind_eq_ok_iff.1 hu
    obtain rfl := Except.ok.inj hu
    exact ht.close htree

/-- The scopes of a new trace on which a client has tried something, with handles of its own and
others. -/
def Attempts.tree (as : Attempts) (n : Nat) (others : List OpenScope) : ScopeTree :=
  (as.play ⟨.start n, others⟩).trace.tree

/-- **Scopes are arranged in the order in which they come.** A client tries any operations on a new
trace, loops with bodies among them, and ends scopes by its handles or by any others. A walk from
the root meets every scope once, in the order of their numbers. Lowering the tree ends, and meets
the scopes of this walk, all of them unless it fails. -/
theorem scopes_arranged (as : Attempts) (n : Nat) (others : List OpenScope) :
    (as.tree n others).Arranged ∧
    (∀ vs, (as.tree n others).Visits [0] vs ↔ vs = List.range (as.tree n others).size) ∧
    ∃ us, (∀ vs x, (as.tree n others).Lowers [0] vs x ↔
        vs = us ∧ x = (as.tree n others).lower.map fun b => [b]) ∧
      us <+: List.range (as.tree n others).size ∧
      ∀ b, (as.tree n others).lower = .ok b → us = List.range (as.tree n others).size := by
  have ht : (as.tree n others).Grown :=
    as.grown_play (S := ⟨.start n, others⟩) ScopeTree.grown_empty
  obtain ⟨us, x, hx, hprefix, hall⟩ := ht.visits.lowers
  have hlen : us.length ≤ (as.tree n others).size := by simpa using hprefix.length_le
  have hlower := hx.lowerAll_eq hlen
  rw [List.map_singleton, ScopeTree.lowerAll_singleton] at hlower
  refine ⟨ht.arranged, fun vs => ⟨fun h => h.unique ht.visits, fun h => h ▸ ht.visits⟩, us,
    fun vs y => ⟨fun hy => ?_, ?_⟩, hprefix, fun b hb => ?_⟩
  · exact hlower ▸ hx.unique hy
  · rintro ⟨rfl, rfl⟩
    exact hlower ▸ hx
  · refine hall [b] (hlower.symm.trans ?_)
    rw [ScopeTree.lower, ScopeTree.scope] at hb
    rw [hb]
    rfl

end LoopNest
