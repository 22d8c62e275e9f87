import LoopNest.Proofs.Closed
import LoopNest.Proofs.Completeness
import LoopNest.Proofs.Handles

/-!
# Trees of scopes with contexts

The context of a scope is what the scopes around it bind, and the parameters. Scopes are recorded
one after the other; each lies in the scopes that are open when it comes, so its context is that of
the innermost open one, extended by what this one binds. The tree is lowered from the inside out, to
blocks that are closed in these contexts.

* `ScopeForm.vars`, `ScopeForm.extend`, `ScopeForm.Within`: one scope;
* **`ScopeForm.closedIn_wrap`**: a scope makes a closed block of closed blocks;
* `ScopeTree.InScope`, `ScopeTree.Numbered`: scopes with their contexts, and with variables of their
  own;
* **`ScopeTree.InScope.addChild`**, **`ScopeTree.Numbered.addChild`**: a scope is added;
* **`ScopeTree.lower_induction`**, **`ScopeTree.InScope.closedIn`**,
  **`ScopeTree.Numbered.allocs`**: what a tree is lowered to.
-/

namespace LoopNest

/-! ## Blocks of scopes -/

namespace Block

theorem binders_nest (kind : LoopKind) (is : List LoopIndex) (body : Block) :
    (nest kind is body).binders = is.map LoopIndex.var ++ body.binders := by
  induction is with
  | nil => rfl
  | cons i is ih => exact congrArg (List.cons i.var) ih

theorem binders_flatten (T : Shapes) (b : Block) : (b.flatten T).binders = b.binders := by
  induction b generalizing T with
  | seq a b iha ihb => rw [flatten, binders, iha, ihb, binders]
  | loop k i body ih => rw [flatten, binders, ih, binders]
  | alloc v shape storage body ih => exact ih _
  | bind bs body ih => rw [flatten, binders, ih, binders, List.map_map, Function.comp_def]
  | eval _ | store _ _ _ => rfl

theorem isUnnested_mapExprs (f : Expr → Expr) (b : Block) :
    (b.mapExprs f).isUnnested = b.isUnnested := by
  induction b with
  | seq a b iha ihb => rw [mapExprs, isUnnested, iha, ihb, isUnnested]
  | loop _ _ body ih | bind _ body ih => exact ih
  | alloc v shape storage body ih =>
    rw [mapExprs, isUnnested, ih, List.length_map, registered_mapExprs, isUnnested]
  | eval _ | store _ _ _ => rfl

theorem isUnnested_ofList {bs : List Block} (h : ∀ b ∈ bs, b.isUnnested = true) :
    (ofList bs).isUnnested = true := by
  induction bs with
  | nil => rfl
  | cons b bs ih =>
    obtain ⟨hb, hbs⟩ := List.forall_mem_cons.1 h
    cases bs with
    | nil => exact hb
    | cons c cs => exact Bool.and_eq_true_iff.2 ⟨hb, ih hbs⟩

theorem isUnnested_nest (kind : LoopKind) (is : List LoopIndex) (body : Block) :
    (nest kind is body).isUnnested = body.isUnnested := by
  induction is with
  | nil => rfl
  | cons i is ih => exact ih

/-- Copies allocate nothing inside each other. -/
theorem isUnnested_unroll {is : List LoopIndex} {body u : Block} (h : unroll is body = .ok u)
    (hbody : body.isUnnested = true) : u.isUnnested = true := by
  induction is generalizing u with
  | nil =>
    obtain rfl := Except.ok.inj h
    exact hbody
  | cons i is ih =>
    obtain ⟨c, b, -, hb, hu⟩ := unroll_cons_eq_ok h
    obtain ⟨copies, rfl, hcopies⟩ := expand_eq_ok hu
    refine isUnnested_ofList fun d hd => ?_
    obtain ⟨k, r, -, rfl⟩ := forall₂_mem_right hcopies hd
    rw [subst, isUnnested_mapExprs]
    exact ih hb

end Block

/-! ## The context of a scope -/

namespace ScopeForm

/-- The variables that a scope binds for what is inside it. -/
def vars : ScopeForm → List Var
  | root | statement _ => []
  | alloc v _ _ => [v]
  | loop _ is => is.map LoopIndex.var
  | bind bs => bs.map Binding.var

/-- The context inside a scope, given the one around it. -/
def extend (Γ : Context) : ScopeForm → Context
  | root | statement _ => Γ
  | alloc v _ _ => Γ.addBuffer v
  | loop _ is => Γ.addValues (is.map LoopIndex.var)
  | bind bs => Γ.addValues (bs.map Binding.var)

/-- What a scope records of itself mentions only what belongs to a context. -/
def Within (Γ : Context) : ScopeForm → Prop
  | root => True
  | alloc _ shape _ => ∀ e ∈ shape, e.Within Γ
  | loop _ is => ∀ i ∈ is, i.range.Within Γ
  | bind bs => ∀ b ∈ bs, b.value.Within Γ
  | statement b => b.ClosedIn Γ

/-- A statement that is recorded is an evaluation or a store. -/
def IsPlain : ScopeForm → Prop
  | statement (.eval _) | statement (.store _ _ _) => True
  | statement _ => False
  | root | alloc _ _ _ | loop _ _ | bind _ => True

/-- The scope is a loop that is to be written out. -/
def IsUnrolled : ScopeForm → Prop
  | loop .unroll _ => True
  | _ => False

/-- **A scope makes a closed block of closed blocks.** -/
theorem closedIn_wrap {form : ScopeForm} {Γ : Context} {bs : List Block} {b : Block}
    (hform : form.Within Γ) (hbs : ∀ c ∈ bs, c.ClosedIn (form.extend Γ))
    (h : form.wrap bs = .ok b) : b.ClosedIn Γ := by
  cases form with
  | root =>
    obtain rfl := wrap_root_eq_ok_iff.1 h
    exact hbs b (List.mem_singleton.2 rfl)
  | alloc v shape storage =>
    obtain rfl := Except.ok.inj h
    exact ⟨hform, Block.closedIn_ofList hbs⟩
  | loop kind is =>
    cases kind with
    | unroll => exact Block.closedIn_unroll hform (Block.closedIn_ofList hbs) h
    | spatial | reduce | zigzag =>
      obtain rfl := Except.ok.inj h
      exact Block.closedIn_nest hform (Block.closedIn_ofList hbs)
  | bind ms =>
    obtain rfl := Except.ok.inj h
    exact ⟨hform, Block.closedIn_ofList hbs⟩
  | statement c =>
    obtain rfl := Except.ok.inj h
    exact hform

section

variable {form : ScopeForm} {bs : List Block} {b : Block}

/-- The variables that a scope's block binds are bound inside, or are its own where it is not
written out. -/
theorem binders_wrap (hform : form.IsPlain) (h : form.wrap bs = .ok b) : ∀ v ∈ b.binders,
    v ∈ bs.flatMap Block.binders ∨ (v ∈ form.vars ∧ ¬form.IsUnrolled) := by
  have hlist : ∀ v ∈ (Block.ofList bs).binders, v ∈ bs.flatMap Block.binders := fun v hv => by
    rwa [Block.binders_ofList] at hv
  intro v hv
  cases form with
  | root =>
    obtain rfl := wrap_root_eq_ok_iff.1 h
    exact .inl (by simpa using hv)
  | alloc u shape storage =>
    obtain rfl := Except.ok.inj h
    exact .inl (hlist v hv)
  | loop kind is =>
    cases kind with
    | unroll => exact .inl (hlist v (Block.binders_unroll h hv))
    | spatial | reduce | zigzag =>
      obtain rfl := Except.ok.inj h
      rw [Block.binders_nest, List.mem_append] at hv
      exact hv.symm.imp (hlist v) fun hv => ⟨hv, fun h => h⟩
  | bind ms =>
    obtain rfl := Except.ok.inj h
    exact (List.mem_append.1 hv).symm.imp (hlist v) fun hv => ⟨hv, fun h => h⟩
  | statement c =>
    obtain rfl := Except.ok.inj h
    cases c with
    | eval | store => exact absurd hv List.not_mem_nil
    | seq | loop | alloc | bind => exact hform.elim

/-- The buffers that a scope's block allocates are allocated inside, or the scope is one of them. -/
theorem ranked_wrap (hform : form.IsPlain) (h : form.wrap bs = .ok b) : ∀ p ∈ b.ranked,
    p ∈ bs.flatMap Block.ranked ∨
      ∃ v shape storage, form = .alloc v shape storage ∧ p = (v, shape.length) := by
  have hlist : ∀ p ∈ (Block.ofList bs).ranked, p ∈ bs.flatMap Block.ranked := fun p hp => by
    rwa [Block.ranked_ofList] at hp
  intro p hp
  cases form with
  | root =>
    obtain rfl := wrap_root_eq_ok_iff.1 h
    exact .inl (by simpa using hp)
  | alloc u shape storage =>
    obtain rfl := Except.ok.inj h
    rcases List.mem_cons.1 hp with rfl | hp
    · exact .inr ⟨u, shape, storage, rfl, rfl⟩
    · exact .inl (hlist p hp)
  | loop kind is =>
    cases kind with
    | unroll => exact .inl (hlist p (Block.ranked_unroll h hp))
    | spatial | reduce | zigzag =>
      obtain rfl := Except.ok.inj h
      rw [Block.ranked, Block.allocs_nest] at hp
      exact .inl (hlist p hp)
  | bind ms =>
    obtain rfl := Except.ok.inj h
    exact .inl (hlist p hp)
  | statement c =>
    obtain rfl := Except.ok.inj h
    cases c with
    | eval | store => exact absurd hp List.not_mem_nil
    | seq | loop | alloc | bind => exact hform.elim

/-- Nothing is allocated inside itself in a scope's block, if it is so in the blocks inside and they
do not allocate the buffer of the scope. -/
theorem isUnnested_wrap (hform : form.IsPlain) (hbs : ∀ c ∈ bs, c.isUnnested = true)
    (hout : ∀ v shape storage, form = .alloc v shape storage → v ∉ bs.flatMap Block.registered)
    (h : form.wrap bs = .ok b) : b.isUnnested = true := by
  have hlist := Block.isUnnested_ofList hbs
  cases form with
  | root =>
    obtain rfl := wrap_root_eq_ok_iff.1 h
    exact hbs b (List.mem_singleton.2 rfl)
  | alloc u shape storage =>
    obtain rfl := Except.ok.inj h
    rw [Block.isUnnested, hlist, Block.registered_ofList, decide_eq_true (hout u shape storage rfl),
      Bool.or_true]
    rfl
  | loop kind is =>
    cases kind with
    | unroll => exact Block.isUnnested_unroll h hlist
    | spatial | reduce | zigzag =>
      obtain rfl := Except.ok.inj h
      rwa [Block.isUnnested_nest]
  | bind ms =>
    obtain rfl := Except.ok.inj h
    exact hlist
  | statement c =>
    obtain rfl := Except.ok.inj h
    cases c with
    | eval | store => rfl
    | seq | loop | alloc | bind => exact hform.elim

end

end ScopeForm

theorem exists_of_mem_mapM {ε α β : Type} {f : α → Except ε β} {xs : List α} {ys : List β}
    (h : xs.mapM f = .ok ys) {y : β} (hy : y ∈ ys) : ∃ x ∈ xs, f x = .ok y := by
  have hrelated := forall₂_of_mapM_eq_ok h
  clear h
  induction hrelated with
  | nil => exact absurd hy List.not_mem_nil
  | @cons x z xs ys hx _ ih =>
    rcases List.mem_cons.1 hy with rfl | hy
    · exact ⟨x, List.mem_cons_self, hx⟩
    · obtain ⟨w, hw, hwy⟩ := ih hy
      exact ⟨w, List.mem_cons_of_mem x hw, hwy⟩

namespace ScopeTree

variable {t u : ScopeTree}

/-- What holds of every scope, if it holds of a scope whenever it holds of the scopes inside it. -/
theorem lower_induction {P : Nat → Block → Prop}
    (step : ∀ id e bs b, t.entries[id]? = some e → (∀ c ∈ bs, ∃ j ∈ e.children, P j c) →
      e.form.wrap bs = .ok b → P id b)
    {n id : Nat} {b : Block} (h : (t.scopeTo n id).lower = .ok b) : P id b := by
  induction n generalizing id b with
  | zero =>
    rw [scopeTo, Scope.lower, Scope.lowerAll] at h
    cases he : t.entries[id]? with
    | none =>
      rw [he] at h
      cases h
    | some e =>
      rw [he] at h
      exact step id e [] b he (List.forall_mem_nil _) h
  | succ n ih =>
    rw [scopeTo] at h
    cases he : t.entries[id]? with
    | none =>
      rw [he] at h
      cases h
    | some e =>
      rw [he] at h
      simp only [Scope.lower, Scope.lowerAll_eq_mapM, bind_eq_ok_iff] at h
      obtain ⟨bs, hbs, hb⟩ := h
      refine step id e bs b he (fun c hc => ?_) hb
      obtain ⟨s, hs, hc⟩ := exists_of_mem_mapM hbs hc
      obtain ⟨j, hj, rfl⟩ := List.mem_map.1 hs
      exact ⟨j, hj, ih hc⟩

/-- What a scope is; there is none but the root where nothing is recorded. -/
def formAt (t : ScopeTree) (id : Nat) : ScopeForm := (t.entries[id]?.map ScopeEntry.form).getD .root

/-- The context inside open scopes, the innermost first. -/
def contextOf (t : ScopeTree) (Γ : Context) : List Nat → Context
  | [] => Γ
  | id :: ids => (t.formAt id).extend (t.contextOf Γ ids)

theorem contextOf_congr {Γ : Context} {ids : List Nat} (h : ∀ id ∈ ids, u.formAt id = t.formAt id) :
    u.contextOf Γ ids = t.contextOf Γ ids := by
  induction ids with
  | nil => rfl
  | cons id ids ih =>
    obtain ⟨hid, hids⟩ := List.forall_mem_cons.1 h
    rw [contextOf, contextOf, hid, ih hids]

theorem lt_size_of_entry {id : Nat} {e : ScopeEntry} (h : t.entries[id]? = some e) :
    id < t.size := by
  obtain ⟨hid, -⟩ := Array.getElem?_eq_some_iff.1 h
  exact hid

theorem formAt_eq {id : Nat} {e : ScopeEntry} (h : t.entries[id]? = some e) :
    t.formAt id = e.form := by
  rw [formAt, h]
  rfl

section

variable {form : ScopeForm} {implicit : Bool} {id : Nat} {e : ScopeEntry}

theorem getElem?_addChild : (t.addChild form implicit).entries[id]? =
    if id = t.size then some ⟨form, implicit, []⟩
    else if id = t.innermost then t.entries[id]?.map (ScopeEntry.adopt [t.size])
    else t.entries[id]? := by
  rw [addChild, Array.getElem?_push, Array.size_modify, Array.getElem?_modify]
  simp only [eq_comm (a := t.innermost)]
  rfl

theorem formAt_addChild (h : id < t.size) : (t.addChild form implicit).formAt id = t.formAt id := by
  rw [formAt, getElem?_addChild, if_neg (Nat.ne_of_lt h), formAt]
  split
  · rw [Option.map_map]
    rfl
  · rfl

/-- The scopes of a tree with one more scope. -/
theorem entry_of_addChild (h : (t.addChild form implicit).entries[id]? = some e) :
    (id = t.size ∧ e = ⟨form, implicit, []⟩) ∨
      ∃ f, t.entries[id]? = some f ∧ e.form = f.form ∧
        ∀ c ∈ e.children, c ∈ f.children ∨ (id = t.innermost ∧ c = t.size) := by
  rw [getElem?_addChild] at h
  split at h
  · next hid => exact .inl ⟨hid, (Option.some.inj h).symm⟩
  · split at h
    · next hid =>
      obtain ⟨f, hf, rfl⟩ := Option.map_eq_some_iff.1 h
      refine .inr ⟨f, hf, rfl, fun c hc => ?_⟩
      exact (List.mem_append.1 hc).imp (fun hc => hc) fun hc => ⟨hid, List.mem_singleton.1 hc⟩
    · exact .inr ⟨e, h, rfl, fun c hc => .inl hc⟩

end

/-! ## Scopes and their contexts -/

/-- Each scope has a context, in which it mentions only what belongs to it, and which it extends for
its children. Open scopes lie in each other. -/
structure InScope (t : ScopeTree) (Γ₀ : Context) (Γ : Nat → Context) : Prop where
  root : Γ 0 = Γ₀
  within : ∀ (id : Nat) (e : ScopeEntry), t.entries[id]? = some e → e.form.Within (Γ id)
  child : ∀ (id : Nat) (e : ScopeEntry), t.entries[id]? = some e → ∀ c ∈ e.children,
    id < c ∧ c < t.size ∧ Γ c = e.form.extend (Γ id)
  opened : ∀ id ids, id :: ids <:+ t.opened → Γ id = t.contextOf Γ₀ ids

variable {Γ₀ : Context} {Γ : Nat → Context} {form : ScopeForm}

theorem entry_of_empty {id : Nat} {e : ScopeEntry} (h : empty.entries[id]? = some e) :
    e = ⟨.root, false, []⟩ := by
  cases id with
  | zero => exact (Option.some.inj h).symm
  | succ id => exact nomatch h

theorem inScope_empty (Γ₀ : Context) : empty.InScope Γ₀ fun _ => Γ₀ := by
  refine ⟨rfl, fun id e he => ?_, fun id e he c hc => ?_, fun id ids hids => ?_⟩
  · rw [entry_of_empty he]
    trivial
  · rw [entry_of_empty he] at hc
    exact absurd hc List.not_mem_nil
  · rcases List.suffix_cons_iff.1 hids with hids | hids
    · obtain ⟨-, rfl⟩ := List.cons.inj hids
      rfl
    · exact absurd (List.suffix_nil.1 hids) (List.cons_ne_nil id ids)

/-- A scope is added in the context of the open ones. -/
theorem InScope.addChild (h : t.InScope Γ₀ Γ) (ht : t.Ordered)
    (hform : form.Within (t.contextOf Γ₀ t.opened)) (implicit : Bool) :
    (t.addChild form implicit).InScope Γ₀
      (Function.update Γ t.size (t.contextOf Γ₀ t.opened)) := by
  have hsize := t.size_addChild form implicit
  have hold : ∀ id < t.size, Function.update Γ t.size (t.contextOf Γ₀ t.opened) id = Γ id :=
    fun id hid => Function.update_of_ne (Nat.ne_of_lt hid) _ _
  refine ⟨?_, fun id e he => ?_, fun id e he c hc => ?_, fun id ids hids => ?_⟩
  · rw [hold 0 (ht.lt_size 0 ht.root_mem), h.root]
  · rcases entry_of_addChild he with ⟨rfl, rfl⟩ | ⟨f, hf, hform, -⟩
    · rwa [Function.update_self]
    · rw [hold id (lt_size_of_entry hf), hform]
      exact h.within id f hf
  · rcases entry_of_addChild he with ⟨rfl, rfl⟩ | ⟨f, hf, hform, hchildren⟩
    · exact absurd hc List.not_mem_nil
    · have hid := lt_size_of_entry hf
      rw [hold id hid, hform, hsize]
      rcases hchildren c hc with hc | ⟨rfl, rfl⟩
      · obtain ⟨hlt, hc', hcontext⟩ := h.child id f hf c hc
        exact ⟨hlt, by omega, by rw [hold c hc', hcontext]⟩
      · -- the new scope lies in the innermost open one
        refine ⟨hid, Nat.lt_succ_self _, ?_⟩
        obtain ⟨i, is, his⟩ := List.exists_cons_of_ne_nil (List.ne_nil_of_mem ht.root_mem)
        have hinner : t.innermost = i := by
          rw [innermost, his]
          rfl
        rw [hinner] at hf ⊢
        rw [Function.update_self, his, contextOf, formAt_eq hf,
          h.opened i is (his ▸ List.suffix_refl _)]
  · have hlt : ∀ i ∈ id :: ids, i < t.size := fun i hi => ht.lt_size i (hids.subset hi)
    obtain ⟨hid, hlt⟩ := List.forall_mem_cons.1 hlt
    rw [hold id hid, h.opened id ids hids]
    exact (contextOf_congr fun i hi => formAt_addChild (hlt i hi)).symm

theorem InScope.enter (h : t.InScope Γ₀ Γ) (ht : t.Ordered)
    (hform : form.Within (t.contextOf Γ₀ t.opened)) (implicit : Bool) :
    (t.enter form implicit).InScope Γ₀
      (Function.update Γ t.size (t.contextOf Γ₀ t.opened)) := by
  have hadd := h.addChild ht hform implicit
  refine ⟨hadd.root, hadd.within, hadd.child, fun id ids hids => ?_⟩
  have hsame : (t.enter form implicit).contextOf Γ₀ ids =
      (t.addChild form implicit).contextOf Γ₀ ids := contextOf_congr fun _ _ => rfl
  rw [hsame]
  rcases List.suffix_cons_iff.1 hids with hids | hids
  · obtain ⟨rfl, rfl⟩ := List.cons.inj hids
    rw [Function.update_self]
    exact (contextOf_congr fun i hi => formAt_addChild (ht.lt_size i hi)).symm
  · exact hadd.opened id ids hids

theorem opened_of_close {id : Nat} (h : t.close id = .ok u) :
    u.entries = t.entries ∧ u.opened <:+ t.opened := by
  unfold close at h
  split at h
  · split at h <;> exact nomatch h
  · dsimp only at h
    split at h
    · exact nomatch h
    · split at h
      · exact nomatch h
      · obtain rfl := Except.ok.inj h
        exact ⟨rfl, (List.drop_suffix _ _).trans (List.dropWhile_suffix _)⟩

/-- What is left open lies in each other still. -/
theorem InScope.close (h : t.InScope Γ₀ Γ) {id : Nat} (hu : t.close id = .ok u) :
    u.InScope Γ₀ Γ := by
  obtain ⟨hentries, hopened⟩ := opened_of_close hu
  have hcontext : ∀ ids, u.contextOf Γ₀ ids = t.contextOf Γ₀ ids := fun ids =>
    contextOf_congr fun i _ => by rw [formAt, hentries, formAt]
  refine ⟨h.root, fun i e he => h.within i e (hentries ▸ he), fun i e he => ?_, fun i is his => ?_⟩
  · have hsize : u.size = t.size := congrArg Array.size hentries
    rw [hsize]
    exact h.child i e (hentries ▸ he)
  · rw [hcontext]
    exact h.opened i is (his.trans hopened)

/-! ## Scopes and their variables -/

/-- Every scope binds variables of its own, numbered in a range. Statements bind none. -/
structure Numbered (t : ScopeTree) (lo hi : Nat) : Prop where
  bounds : ∀ (id : Nat) (e : ScopeEntry), t.entries[id]? = some e →
    ∀ v ∈ e.form.vars, lo ≤ v.id ∧ v.id < hi
  unique : ∀ (i j : Nat) (e f : ScopeEntry), t.entries[i]? = some e → t.entries[j]? = some f →
    ∀ v ∈ e.form.vars, v ∈ f.form.vars → i = j
  plain : ∀ (id : Nat) (e : ScopeEntry), t.entries[id]? = some e → e.form.IsPlain

variable {lo hi top : Nat}

/-- Scopes that bind one variable are one scope. -/
theorem Numbered.eq_of_mem_vars (h : t.Numbered lo hi) {i j : Nat} {e f : ScopeEntry}
    (he : t.entries[i]? = some e) (hf : t.entries[j]? = some f) {v : Var} (hve : v ∈ e.form.vars)
    (hvf : v ∈ f.form.vars) : e = f := by
  obtain rfl := h.unique i j e f he hf v hve hvf
  exact Option.some.inj (he.symm.trans hf)

/-- Which scopes are open does not matter. -/
theorem Numbered.of_entries (h : t.Numbered lo hi) (hu : u.entries = t.entries) :
    u.Numbered lo hi :=
  ⟨fun id e he => h.bounds id e (hu ▸ he),
    fun i j e f he hf => h.unique i j e f (hu ▸ he) (hu ▸ hf),
    fun id e he => h.plain id e (hu ▸ he)⟩

theorem numbered_empty (lo hi : Nat) : empty.Numbered lo hi := by
  refine ⟨fun id e he v hv => ?_, fun i j e f he hf v hv => ?_, fun id e he => ?_⟩
  · rw [entry_of_empty he] at hv
    exact absurd hv List.not_mem_nil
  · rw [entry_of_empty he] at hv
    exact absurd hv List.not_mem_nil
  · rw [entry_of_empty he]
    trivial

theorem Numbered.mono (h : t.Numbered lo hi) (hle : hi ≤ top) : t.Numbered lo top :=
  ⟨fun id e he v hv => ⟨(h.bounds id e he v hv).1, (h.bounds id e he v hv).2.trans_le hle⟩,
    h.unique, h.plain⟩

/-- A scope is added with later variables. -/
theorem Numbered.addChild (h : t.Numbered lo hi) (hlo : lo ≤ hi) (htop : hi ≤ top)
    (hplain : form.IsPlain) (hvars : ∀ v ∈ form.vars, hi ≤ v.id ∧ v.id < top) (implicit : Bool) :
    (t.addChild form implicit).Numbered lo top := by
  refine ⟨fun id e he v hv => ?_, fun i j e f he hf v hve hvf => ?_, fun id e he => ?_⟩
  · rcases entry_of_addChild he with ⟨-, rfl⟩ | ⟨f, hf, hform, -⟩
    · have := hvars v hv
      omega
    · have := h.bounds id f hf v (hform ▸ hv)
      omega
  · rcases entry_of_addChild he with ⟨rfl, rfl⟩ | ⟨e', he', hform, -⟩
    · rcases entry_of_addChild hf with ⟨rfl, -⟩ | ⟨f', hf', hform', -⟩
      · rfl
      · have hnew := hvars v hve
        have hold := h.bounds j f' hf' v (hform' ▸ hvf)
        omega
    · rcases entry_of_addChild hf with ⟨rfl, rfl⟩ | ⟨f', hf', hform', -⟩
      · have hnew := hvars v hvf
        have hold := h.bounds i e' he' v (hform ▸ hve)
        omega
      · exact h.unique i j e' f' he' hf' v (hform ▸ hve) (hform' ▸ hvf)
  · rcases entry_of_addChild he with ⟨-, rfl⟩ | ⟨f, hf, hform, -⟩
    · exact hplain
    · rw [hform]
      exact h.plain id f hf

/-! ## What a tree is lowered to -/

/-- **A scope is lowered to a block that is closed in its context.** -/
theorem InScope.closedIn (h : t.InScope Γ₀ Γ) {n id : Nat} {b : Block}
    (hb : (t.scopeTo n id).lower = .ok b) : b.ClosedIn (Γ id) := by
  refine lower_induction (P := fun id b => b.ClosedIn (Γ id)) (fun id e bs b he hbs hwrap => ?_) hb
  refine ScopeForm.closedIn_wrap (h.within id e he) (fun c hc => ?_) hwrap
  obtain ⟨j, hj, hcj⟩ := hbs c hc
  rwa [(h.child id e he j hj).2.2] at hcj

/-- A scope that is not written out binds a variable. -/
def Binds (t : ScopeTree) (v : Var) : Prop := ∃ (id : Nat) (e : ScopeEntry),
  t.entries[id]? = some e ∧ v ∈ e.form.vars ∧ ¬e.form.IsUnrolled

/-- A scope numbered `id` or later allocates a buffer with a number of dimensions. -/
def Allocates (t : ScopeTree) (id : Nat) (p : Var × Nat) : Prop :=
  ∃ (j : Nat) (e : ScopeEntry) (shape : List Expr) (storage : String), id ≤ j ∧
    t.entries[j]? = some e ∧ e.form = .alloc p.1 shape storage ∧ p.2 = shape.length

theorem Allocates.mono {id j : Nat} {p : Var × Nat} (h : t.Allocates j p) (hle : id ≤ j) :
    t.Allocates id p := by
  obtain ⟨k, e, shape, storage, hk, h⟩ := h
  exact ⟨k, e, shape, storage, hle.trans hk, h⟩

/-- A lowered block binds variables of scopes that are not written out. -/
theorem Numbered.binders (h : t.Numbered lo hi) {n id : Nat} {b : Block}
    (hb : (t.scopeTo n id).lower = .ok b) : ∀ v ∈ b.binders, t.Binds v := by
  refine lower_induction (P := fun _ b => ∀ v ∈ b.binders, t.Binds v)
    (fun id e bs b he hbs hwrap v hv => ?_) hb
  rcases ScopeForm.binders_wrap (h.plain id e he) hwrap v hv with hv | ⟨hv, hne⟩
  · obtain ⟨c, hc, hv⟩ := List.mem_flatMap.1 hv
    obtain ⟨j, -, hP⟩ := hbs c hc
    exact hP v hv
  · exact ⟨id, e, he, hv, hne⟩

/-- A lowered block allocates buffers of scopes, none inside another one of the same buffer. -/
theorem Numbered.allocs (h : t.Numbered lo hi) (hscope : t.InScope Γ₀ Γ) {n id : Nat} {b : Block}
    (hb : (t.scopeTo n id).lower = .ok b) :
    b.isUnnested = true ∧ ∀ p ∈ b.ranked, t.Allocates id p := by
  refine lower_induction
    (P := fun id b => b.isUnnested = true ∧ ∀ p ∈ b.ranked, t.Allocates id p)
    (fun id e bs b he hbs hwrap => ?_) hb
  have hplain := h.plain id e he
  have hinside : ∀ p ∈ bs.flatMap Block.ranked, t.Allocates (id + 1) p := by
    intro p hp
    obtain ⟨c, hc, hp⟩ := List.mem_flatMap.1 hp
    obtain ⟨j, hj, -, hP⟩ := hbs c hc
    exact (hP p hp).mono (hscope.child id e he j hj).1
  refine ⟨ScopeForm.isUnnested_wrap hplain (fun c hc => ?_) (fun v shape storage hform hv => ?_)
    hwrap, fun p hp => ?_⟩
  · obtain ⟨j, -, hP, -⟩ := hbs c hc
    exact hP
  · -- the buffer of this scope would be that of a later one
    obtain ⟨c, hc, hv⟩ := List.mem_flatMap.1 hv
    obtain ⟨m, hm, -⟩ := Block.mem_registered_iff.1 hv
    obtain ⟨j, f, shape', storage', hlt, hf, hform', -⟩ :=
      hinside (v, m) (List.mem_flatMap.2 ⟨c, hc, hm⟩)
    have hsame : id = j := h.unique id j e f he hf v (by rw [hform]; exact List.mem_cons_self)
      (by rw [hform']; exact List.mem_cons_self)
    omega
  · rcases ScopeForm.ranked_wrap hplain hwrap p hp with hp | ⟨v, shape, storage, hform, rfl⟩
    · exact (hinside p hp).mono (Nat.le_succ id)
    · exact ⟨id, e, shape, storage, Nat.le_refl id, he, hform, rfl⟩

end ScopeTree

end LoopNest
