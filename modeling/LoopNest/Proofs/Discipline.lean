import LoopNest.Proofs.Attempts
import LoopNest.Proofs.ScopedTrees
import LoopNest.Proofs.Stepwise

/-!
# The order in which scopes end

What a client sees of its trace is which explicit scopes it has entered and which it has left. From
this alone it knows which handle will be accepted next, and whether the trace can be finished: the
scopes that are still pending must be left in turn, the latest first. Scopes that were opened
implicitly are of no account, and neither is an operation that failed.

* `Note`, `Note.pending`: what is noted, and what is pending;
* `Trace.Run`: the traces that come about, with their notes;
* `ScopeTree.explicit`, **`ScopeTree.canClose_iff`**: a scope can be closed if it is the latest
  explicit one;
* `Tally`, **`Trace.Run.tally`**: the notes and the tree agree;
* `Operation.fault?`: when an operation fails;
* **`leave_latest`**: the order in which scopes end, and what happens out of order.
-/

namespace LoopNest

/-! ## Notes of a client -/

/-- What a client notes of its explicit scopes. -/
inductive Note where
  | entered (h : OpenScope)
  | left (h : OpenScope)
deriving DecidableEq

namespace Note

/-- The scope that is entered. -/
def entered? : Note → Option OpenScope
  | entered h => some h
  | left _ => none

/-- The scopes that were entered and not left, the latest first, as the notes are. -/
def pending (L : List Note) : List OpenScope :=
  (L.filterMap entered?).filter fun h => left h ∉ L

/-- A scope that was just entered is the latest. -/
theorem pending_entered {L : List Note} {h : OpenScope} (hh : left h ∉ L) :
    pending (entered h :: L) = h :: pending L := by
  have hcons : (entered h :: L).filterMap entered? = h :: L.filterMap entered? := rfl
  unfold pending
  rw [hcons, List.filter_cons_of_pos (by simpa using hh)]
  simp

theorem pending_left {L : List Note} {h : OpenScope} :
    pending (left h :: L) = (pending L).filter (· ≠ h) := by
  have hcons : (left h :: L).filterMap entered? = L.filterMap entered? := rfl
  unfold pending
  rw [hcons, List.filter_filter]
  refine List.filter_congr fun g _ => ?_
  simp [not_or]

end Note

open Note

/-- The traces that come about from the start by any operations, and by ending scopes with handles
that were issued, each with what the client noted, the latest first. -/
inductive Trace.Run : List Note → Trace → Prop where
  | start (fresh : Nat) : Run [] (.start fresh)
  | perform {L : List Note} {t u : Trace} (hrun : Run L t) (o : Operation) {h? : Option OpenScope}
    (ho : o.perform t = .ok (h?, u)) : Run (h?.toList.map .entered ++ L) u
  | leave {L : List Note} {t u : Trace} (hrun : Run L t) {h : OpenScope} (hh : .entered h ∈ L)
    (hu : t.leave h = .ok u) : Run (.left h :: L) u

/-- **Whatever a client attempts is such a run**: its handles are of scopes that were entered. -/
theorem Trace.run_play (as : Attempts) (n : Nat) :
    ∃ L, Trace.Run L (as.play ⟨.start n, []⟩).trace ∧
      ∀ h ∈ (as.play ⟨.start n, []⟩).held, .entered h ∈ L := by
  have hplay := as.play_induction (S := ⟨.start n, []⟩) (K := [])
    (P := fun t K => ∃ L, Trace.Run L t ∧ ∀ h ∈ K, .entered h ∈ L) ?_ ?_ ?_ ?_
  · obtain ⟨L, hrun, hheld⟩ := hplay
    exact ⟨L, hrun, fun h hh => hheld h (List.mem_append_left _ hh)⟩
  · rintro t K K' hsub ⟨L, hrun, hheld⟩
    exact ⟨L, hrun, fun h hh => hheld h (hsub hh)⟩
  · rintro t K o h? u ⟨L, hrun, hheld⟩ hu
    refine ⟨_, hrun.perform o hu, fun h hh => ?_⟩
    rcases List.mem_append.1 hh with hh | hh
    · exact List.mem_append_left _ (List.mem_map_of_mem hh)
    · exact List.mem_append_right _ (hheld h hh)
  · rintro t K h u ⟨L, hrun, hheld⟩ hh hu
    exact ⟨_, hrun.leave (hheld h hh) hu, fun g hg => List.mem_cons_of_mem _ (hheld g hg)⟩
  · exact ⟨[], .start n, fun h hh => (nomatch hh)⟩

/-! ## The explicit scopes of a tree -/

namespace ScopeTree

variable {t : ScopeTree} {id : Nat}

/-- The open scopes above the root that were opened explicitly, innermost first. -/
def explicit (t : ScopeTree) : List Nat := t.opened.filter fun s => 0 < s ∧ t.isImplicit s = false

theorem isImplicit_addChild {form : ScopeForm} {implicit : Bool} :
    (t.addChild form implicit).isImplicit id =
      if id = t.size then implicit else t.isImplicit id := by
  rw [isImplicit, getElem?_addChild]
  split
  · rfl
  · split
    · rw [Option.map_map]
      rfl
    · rfl

/-- The open scopes inside one, this one, and those around it. -/
theorem Ordered.opened_eq (ht : t.Ordered) (hid : id ∈ t.opened) :
    t.opened = t.opened.filter (id < ·) ++ id :: t.opened.filter (· < id) := by
  obtain ⟨inside, around, hopened⟩ := List.append_of_mem hid
  have hdesc := hopened ▸ ht.descending
  obtain ⟨-, hcons, hinside⟩ := List.pairwise_append.1 hdesc
  have haround := (List.pairwise_cons.1 hcons).1
  have hgt : ∀ s ∈ inside, id < s := fun s hs => hinside s hs id List.mem_cons_self
  have hlt : ∀ s ∈ around, s < id := haround
  have h1 : inside.filter (id < ·) = inside := List.filter_eq_self.2 (by simpa using hgt)
  have h2 : around.filter (id < ·) = [] := List.filter_eq_nil_iff.2 fun s hs => by
    have := hlt s hs
    simp
    omega
  have h3 : inside.filter (· < id) = [] := List.filter_eq_nil_iff.2 fun s hs => by
    have := hgt s hs
    simp
    omega
  have h4 : around.filter (· < id) = around := List.filter_eq_self.2 (by simpa using hlt)
  rw [hopened, List.filter_append, List.filter_append, List.filter_cons_of_neg (by simp),
    List.filter_cons_of_neg (by simp), h1, h2, h3, h4, List.append_nil, List.nil_append]

/-- The explicit scopes inside an explicit one, this one, and those around it. -/
theorem Ordered.explicit_eq (ht : t.Ordered) (h0 : 0 < id) (hid : id ∈ t.opened)
    (hexplicit : t.isImplicit id = false) :
    t.explicit = (t.opened.filter (id < ·)).filter (fun s => 0 < s ∧ t.isImplicit s = false) ++
      id :: (t.closed id).explicit := by
  unfold explicit
  conv_lhs => rw [ht.opened_eq hid]
  rw [List.filter_append, List.filter_cons_of_pos (by simpa using ⟨h0, hexplicit⟩)]
  rfl

theorem explicit_of_canClose (ht : t.Ordered) (h0 : 0 < id) (hexplicit : t.isImplicit id = false)
    (hcan : t.CanClose id) : t.explicit = id :: (t.closed id).explicit := by
  obtain ⟨hopen, hinside⟩ := hcan
  rw [ht.explicit_eq h0 hopen hexplicit, List.filter_eq_nil_iff.2, List.nil_append]
  intro s hs
  obtain ⟨hs, hlt⟩ := List.mem_filter.1 hs
  simp [hinside s hs (by simpa using hlt)]

/-- **An explicit scope can be closed if it is the latest of those that are open.** -/
theorem canClose_iff (ht : t.Ordered) (h0 : 0 < id) (hexplicit : t.isImplicit id = false) :
    t.CanClose id ↔ t.explicit.head? = some id := by
  constructor
  · intro hcan
    rw [explicit_of_canClose ht h0 hexplicit hcan]
    rfl
  · intro hhead
    have hopen : id ∈ t.opened := List.mem_of_mem_filter (List.mem_of_head? hhead)
    refine ⟨hopen, fun s hs hlt => ?_⟩
    by_contra himplicit
    rw [Bool.not_eq_true] at himplicit
    have hmem : s ∈ (t.opened.filter (id < ·)).filter
        (fun s => 0 < s ∧ t.isImplicit s = false) := by
      rw [List.mem_filter, List.mem_filter]
      exact ⟨⟨hs, by simpa using hlt⟩, by simpa using ⟨Nat.zero_lt_of_lt hlt, himplicit⟩⟩
    rw [ht.explicit_eq h0 hopen hexplicit] at hhead
    -- the scope would stand before itself
    obtain ⟨a, l, hal⟩ := List.exists_cons_of_ne_nil (List.ne_nil_of_mem hmem)
    rw [hal] at hhead
    have hlt : id < a := by
      have := List.mem_of_mem_filter (hal ▸ List.mem_cons_self)
      simpa using List.of_mem_filter this
    have : a = id := Option.some.inj hhead
    omega

theorem explicit_addStatement (ht : t.Ordered) (b : Block) :
    (t.addStatement b).explicit = t.explicit := by
  refine List.filter_congr fun s hs => ?_
  rw [addStatement, isImplicit_addChild, if_neg (Nat.ne_of_lt (ht.lt_size s hs))]

theorem explicit_enter (ht : t.Ordered) (form : ScopeForm) (implicit : Bool) :
    (t.enter form implicit).explicit = if implicit then t.explicit else t.size :: t.explicit := by
  have hroot : 0 < t.size := ht.lt_size 0 ht.root_mem
  have himplicit : ∀ s, (t.enter form implicit).isImplicit s =
    if s = t.size then implicit else t.isImplicit s := fun s => isImplicit_addChild
  have hrest : t.opened.filter (fun s => 0 < s ∧ (t.enter form implicit).isImplicit s = false) =
      t.explicit := by
    refine List.filter_congr fun s hs => ?_
    rw [himplicit, if_neg (Nat.ne_of_lt (ht.lt_size s hs))]
  have hopened : (t.enter form implicit).opened = t.size :: t.opened := rfl
  rw [explicit, hopened]
  cases implicit with
  | true => rw [List.filter_cons_of_neg (by simp [himplicit]), hrest, if_pos rfl]
  | false =>
    rw [List.filter_cons_of_pos (by simpa [himplicit] using hroot), hrest, if_neg (by decide)]

/-- Nothing is left open if there is no explicit scope. -/
theorem checkClosed_eq_ok_iff (ht : t.Ordered) : t.checkClosed = .ok () ↔ t.explicit = [] := by
  have hroot : t.opened.reverse.drop 1 = (t.opened.filter (0 < ·)).reverse := by
    conv_lhs => rw [ht.opened_eq ht.root_mem]
    simp
  have hleft : t.leftOpen? = none ↔ t.explicit = [] := by
    rw [leftOpen?, hroot, List.find?_eq_none, explicit, List.filter_eq_nil_iff]
    simp
  rw [← hleft, checkClosed]
  cases t.leftOpen? with
  | none => exact ⟨fun _ => rfl, fun _ => rfl⟩
  | some s => exact ⟨fun h => (by cases h), fun h => (by cases h)⟩

theorem kind_of_checkClosed {e : Error} (h : t.checkClosed = .error e) :
    e.kind = .stackDiscipline := by
  unfold checkClosed at h
  split at h
  · exact Except.error.inj h ▸ rfl
  · exact nomatch h

end ScopeTree

/-! ## The notes and the tree -/

/-- The notes of a client agree with a tree. -/
structure Tally (L : List Note) (t : ScopeTree) : Prop where
  ordered : t.Ordered
  explicit : t.explicit = (pending L).map OpenScope.id
  entered : ∀ h, .entered h ∈ L → 0 < h.id ∧ h.id < t.size ∧ t.isImplicit h.id = false
  left : ∀ h, .left h ∈ L → .entered h ∈ L

namespace Tally

variable {L : List Note} {t u : ScopeTree}

theorem start : Tally [] .empty :=
  ⟨ScopeTree.ordered_empty, rfl, fun _ h => (nomatch h), fun _ h => (nomatch h)⟩

/-- Scopes are added, and the handle of an explicit one is noted. -/
theorem grows (hL : Tally L t) {h? : Option OpenScope} (hg : Operation.Grows t h? u) :
    Tally (h?.toList.map .entered ++ L) u := by
  have hsize : ∀ form implicit, (t.addChild form implicit).size = t.size + 1 :=
    fun form implicit => t.size_addChild form implicit
  have hold : ∀ form implicit h, .entered h ∈ L → 0 < h.id ∧
      h.id < (t.addChild form implicit).size ∧
      (t.addChild form implicit).isImplicit h.id = false := fun form implicit h hh => by
    obtain ⟨h0, hlt, hexplicit⟩ := hL.entered h hh
    rw [hsize, ScopeTree.isImplicit_addChild, if_neg (Nat.ne_of_lt hlt)]
    exact ⟨h0, by omega, hexplicit⟩
  refine ⟨hg.ordered hL.ordered, ?_, ?_, ?_⟩
  · cases hg with
    | same => exact hL.explicit
    | statement b => exact (ScopeTree.explicit_addStatement hL.ordered b).trans hL.explicit
    | implicit form => exact (ScopeTree.explicit_enter hL.ordered form true).trans hL.explicit
    | explicit form =>
      have hnew : Note.left ⟨t.size⟩ ∉ L := fun h => by
        have := (hL.entered _ (hL.left _ h)).2.1
        exact absurd this (lt_irrefl _)
      have hpending : pending (.entered ⟨t.size⟩ :: L) = ⟨t.size⟩ :: pending L :=
        pending_entered hnew
      rw [ScopeTree.explicit_enter hL.ordered, hL.explicit]
      exact (congrArg (List.map OpenScope.id) hpending).symm
  · cases hg with
    | same => exact hL.entered
    | statement b => exact hold _ _
    | implicit form => exact hold _ _
    | explicit form =>
      intro h hh
      rcases List.mem_cons.1 hh with hh | hh
      · obtain rfl := Note.entered.inj hh
        exact ⟨hL.ordered.lt_size 0 hL.ordered.root_mem, hsize .. ▸ Nat.lt_succ_self _,
          ScopeTree.isImplicit_addChild.trans (if_pos rfl)⟩
      · exact hold _ _ h hh
  · intro h hh
    rcases List.mem_append.1 hh with hh | hh
    · obtain ⟨g, -, hg⟩ := List.mem_map.1 hh
      exact nomatch hg
    · exact List.mem_append_right _ (hL.left h hh)

/-- The latest explicit scope is left. -/
theorem leave (hL : Tally L t) {h : OpenScope} (hh : .entered h ∈ L) (hcan : t.CanClose h.id) :
    Tally (.left h :: L) (t.closed h.id) := by
  obtain ⟨h0, -, hexplicit⟩ := hL.entered h hh
  refine ⟨hL.ordered.closed h0, ?_, fun g hg => ?_, fun g hg => ?_⟩
  · have hhead := (ScopeTree.explicit_of_canClose hL.ordered h0 hexplicit hcan).symm.trans
      hL.explicit
    obtain ⟨g, hs, hpending, hg, hrest⟩ := List.map_eq_cons_iff.1 hhead.symm
    obtain rfl : g = h := congrArg OpenScope.mk hg
    have hearlier : ∀ k ∈ hs, k ≠ g := by
      rintro k hk rfl
      have hmem : k.id ∈ (t.closed k.id).explicit := hrest ▸ List.mem_map_of_mem hk
      have := List.of_mem_filter (List.mem_of_mem_filter hmem)
      simp at this
    rw [pending_left, hpending, List.filter_cons_of_neg (by simp),
      List.filter_eq_self.2 (by simpa using hearlier), hrest]
  · exact hL.entered g ((List.mem_cons.1 hg).resolve_left (by simp))
  · refine List.mem_cons_of_mem _ ?_
    rcases List.mem_cons.1 hg with hg | hg
    · exact Note.left.inj hg ▸ hh
    · exact hL.left g hg

end Tally

/-- **The notes of every run agree with the tree.** -/
theorem Trace.Run.tally {L : List Note} {t : Trace} (hrun : Trace.Run L t) : Tally L t.tree := by
  induction hrun with
  | start fresh => exact Tally.start
  | perform _ o ho ih => exact ih.grows (Operation.grows_of_perform ho)
  | @leave L t u _ h hh hu ih =>
    obtain ⟨hcan, rfl⟩ := (Trace.leave_eq_ok_iff ih.ordered (ih.entered h hh).1).1 hu
    exact ih.leave hh hcan

/-! ## Lowering and the order of scopes -/

/-- A computation does not fail for the order of scopes. -/
def Orderly {α : Type} (x : Except Error α) : Prop := ∀ e, x = .error e → e.kind ≠ .stackDiscipline

section Orderly

variable {α β : Type} {x : Except Error α}

theorem orderly_ok (a : α) : Orderly (.ok a) := fun _ h => nomatch h

theorem orderly_error {e : Error} (h : e.kind ≠ .stackDiscipline) :
    Orderly (.error e : Except Error α) := fun _ h' => Except.error.inj h' ▸ h

theorem Orderly.bind {f : α → Except Error β} (hx : Orderly x) (hf : ∀ a, Orderly (f a)) :
    Orderly (x >>= f) := by
  cases x with
  | ok a => exact hf a
  | error e => exact orderly_error (hx e rfl)

theorem orderly_mapM {f : α → Except Error β} {l : List α} (hf : ∀ a, Orderly (f a)) :
    Orderly (l.mapM f) := by
  induction l with
  | nil => exact orderly_ok []
  | cons a l ih =>
    rw [List.mapM_cons]
    exact (hf a).bind fun b => ih.bind fun bs => orderly_ok (b :: bs)

theorem Copies.orderly_offset (c : Copies) (k : Int) : Orderly (c.offset k) := by
  unfold offset
  dsimp only
  split
  · exact orderly_error nofun
  · split
    · split
      · exact orderly_error nofun
      · exact orderly_ok _
    · exact orderly_ok _

theorem LoopIndex.orderly_copies (i : LoopIndex) : Orderly i.copies := by
  unfold copies
  split
  · exact orderly_error nofun
  · split
    · exact orderly_error nofun
    · dsimp only
      split
      · exact (Copies.orderly_offset _ _).bind fun _ => orderly_ok _
      · exact orderly_ok _

theorem Block.orderly_unroll (is : List LoopIndex) (body : Block) : Orderly (unroll is body) := by
  refine (orderly_mapM LoopIndex.orderly_copies).bind fun plan => ?_
  induction plan with
  | nil => exact orderly_ok body
  | cons c plan ih =>
    rw [List.foldrM_cons]
    refine ih.bind fun b => (orderly_mapM fun k => ?_).bind fun copies => orderly_ok _
    exact (c.orderly_offset k).bind fun e => orderly_ok _

theorem ScopeForm.orderly_wrap (form : ScopeForm) (bs : List Block) : Orderly (form.wrap bs) := by
  unfold wrap
  split
  · exact orderly_ok _
  · exact orderly_error nofun
  · exact orderly_ok _
  · exact orderly_ok _
  · exact Block.orderly_unroll _ _
  · exact orderly_ok _
  · exact orderly_ok _

mutual

theorem Scope.orderly_lower : ∀ s : Scope, Orderly s.lower
  | .node form children => by
    rw [Scope.lower]
    exact (Scope.orderly_lowerAll children).bind fun bs => form.orderly_wrap bs

theorem Scope.orderly_lowerAll : ∀ ss : List Scope, Orderly (Scope.lowerAll ss)
  | [] => orderly_ok []
  | s :: ss => by
    rw [Scope.lowerAll]
    exact (Scope.orderly_lower s).bind fun b =>
      (Scope.orderly_lowerAll ss).bind fun bs => orderly_ok (b :: bs)

end

end Orderly

/-- A trace fails to finish for the order of its scopes exactly if an explicit one is left open. -/
theorem Trace.toBlock_undisciplined_iff {t : Trace} (ht : t.tree.Ordered) :
    (∃ e, t.toBlock = .error e ∧ e.kind = .stackDiscipline) ↔ t.tree.explicit ≠ [] := by
  rw [ne_eq, ← ScopeTree.checkClosed_eq_ok_iff ht, toBlock]
  cases hclosed : t.tree.checkClosed with
  | ok _ =>
    constructor
    · rintro ⟨e, he, hkind⟩
      exact absurd hkind (Scope.orderly_lower _ e he)
    · intro hne
      exact absurd rfl hne
  | error e =>
    exact ⟨fun _ h => (by cases h), fun _ => ⟨e, rfl, ScopeTree.kind_of_checkClosed hclosed⟩⟩

/-! ## What fails -/

namespace Operation

/-- Why an operation fails, if it does. The trace has no part in it. -/
def fault? : Operation → Option Error
  | enterLoop _ decl =>
    match decl.check with
    | .ok _ => none
    | .error e => some e
  | store target selectors _ =>
    match target.select selectors with
    | .ok (.element _ _) => none
    | .ok (.view _) => some (.unsupportedOperation .partialStore)
    | .error e => some e
  | fill target _ => some (.unsupportedOperation (.fill target.buffer))
  | load source => some (.unsupportedOperation (.wholeLoad source.buffer source.rank))
  | newVar _ _ | bindView _ | allocate _ _ _ _ | enterAlloc _ _ _ _ | letVar _ _ | call _ _ _
  | evaluate _ => none

theorem perform_eq_error_iff {o : Operation} {t : Trace} {e : Error} :
    o.perform t = .error e ↔ o.fault? = some e := by
  cases o with
  | newVar | bindView | allocate | enterAlloc | letVar | call | evaluate =>
    exact ⟨fun h => (by cases h), fun h => (by cases h)⟩
  | enterLoop kind decl =>
    rw [perform, fault?, Trace.enterLoop]
    cases decl.check with
    | ok parts => exact ⟨fun h => (by cases h), fun h => (by cases h)⟩
    | error e' =>
      exact ⟨fun h => congrArg some (Except.error.inj h), fun h => congrArg _ (Option.some.inj h)⟩
  | store target selectors value =>
    rw [perform, fault?, Trace.store]
    cases target.select selectors with
    | ok s =>
      cases s with
      | element buffer indices => exact ⟨fun h => (by cases h), fun h => (by cases h)⟩
      | view v =>
        exact ⟨fun h => congrArg some (Except.error.inj h), fun h => congrArg _ (Option.some.inj h)⟩
    | error e' =>
      exact ⟨fun h => congrArg some (Except.error.inj h), fun h => congrArg _ (Option.some.inj h)⟩
  | fill target value =>
    exact ⟨fun h => congrArg some (Except.error.inj h), fun h => congrArg _ (Option.some.inj h)⟩
  | load source =>
    exact ⟨fun h => congrArg some (Except.error.inj h), fun h => congrArg _ (Option.some.inj h)⟩

end Operation

/-! ## The order in which scopes end -/

/-- **Scopes end in order, and what fails changes nothing.** In every run the next scope that can be
ended is the latest of those pending. With it end the implicit scopes that were opened inside it,
and nothing else changes; every other handle is refused for want of discipline. What else can fail
is an operation with a bad description, and the trace is left as it was by whatever fails: also by
programs that change it step by step and take no step back, which end as the operations do. The
trace cannot be finished for want of discipline exactly as long as some scope is pending. -/
theorem leave_latest {L : List Note} {t : Trace} (hrun : Trace.Run L t) :
    (∀ h, .entered h ∈ L →
      ((∃ u, t.leave h = .ok u) ↔ (pending L).head? = some h) ∧
      (∀ u, t.leave h = .ok u → ∃ inside around, t.tree.opened = inside ++ h.id :: around ∧
        (∀ s ∈ inside, t.tree.isImplicit s = true) ∧
        u = { t with tree := { t.tree with opened := around } }) ∧
      ∀ e, t.leave h = .error e → e.kind = .stackDiscipline ∧
        ∀ (m : Type → Type) [Monad m],
          (Tracing.act fun t => t.leave h : Tracing m Unit).run t = pure (.error e, t)) ∧
    (∀ o e, Operation.perform t o = .error e ↔ o.fault? = some e) ∧
    (∀ o e, Operation.perform t o = .error e → ∀ (m : Type → Type) [Monad m],
      (Tracing.tryOp fun t => Operation.perform t o : Tracing m _).run t = pure (.error e, t)) ∧
    ((∃ e, t.toBlock = .error e ∧ e.kind = .stackDiscipline) ↔ pending L ≠ []) ∧
    ∀ (m : Type → Type) [Monad m] [LawfulMonad m],
      (∀ h u, t.leave h = .ok u →
        (Tracing.closeScope h.id : Tracing m Unit).run t = pure (.ok (), u)) ∧
      (∀ h e, t.leave h = .error e →
        (Tracing.closeScope h.id : Tracing m Unit).run t = pure (.error e, t)) ∧
      (∀ o h? u, Operation.perform t o = .ok (h?, u) →
        (o.steps : Tracing m _).run t = pure (.ok h?, u)) ∧
      ∀ o e, Operation.perform t o = .error e →
        (o.steps : Tracing m _).run t = pure (.error e, t) := by
  have htally := hrun.tally
  refine ⟨fun h hh => ⟨?_, fun u hu => ?_, fun e he => ⟨?_, fun m _ => ?_⟩⟩,
    fun o e => Operation.perform_eq_error_iff, fun o e he m _ => Tracing.run_tryOp_of_error he, ?_,
    fun m _ _ => ⟨fun h u hu => ?_, fun h e he => ?_, fun o h? u hu => ?_, fun o e he => ?_⟩⟩
  · obtain ⟨h0, -, hexplicit⟩ := htally.entered h hh
    have hhead : (pending L).head? = some h ↔ t.tree.explicit.head? = some h.id := by
      rw [htally.explicit, List.head?_map, Option.map_eq_some_iff]
      constructor
      · intro hh
        exact ⟨h, hh, rfl⟩
      · rintro ⟨g, hg, hid⟩
        obtain rfl : g = h := congrArg OpenScope.mk hid
        exact hg
    rw [hhead, ← ScopeTree.canClose_iff htally.ordered h0 hexplicit]
    constructor
    · rintro ⟨u, hu⟩
      exact ((Trace.leave_eq_ok_iff htally.ordered h0).1 hu).1
    · intro hcan
      exact ⟨_, (Trace.leave_eq_ok_iff htally.ordered h0).2 ⟨hcan, rfl⟩⟩
  · obtain ⟨⟨hopen, hinside⟩, rfl⟩ :=
      (Trace.leave_eq_ok_iff htally.ordered (htally.entered h hh).1).1 hu
    refine ⟨_, _, htally.ordered.opened_eq hopen, fun s hs => ?_, rfl⟩
    obtain ⟨hs, hlt⟩ := List.mem_filter.1 hs
    exact hinside s hs (by simpa using hlt)
  · exact ScopeTree.kind_of_close (Trace.leave_eq_error_iff.1 he)
  · exact Tracing.run_act_of_error he
  · rw [Trace.toBlock_undisciplined_iff htally.ordered, htally.explicit, ne_eq,
      List.map_eq_nil_iff]
  · rw [Tracing.run_closeScope, Tracing.run_act_of_ok hu]
  · rw [Tracing.run_closeScope, Tracing.run_act_of_error he]
  · rw [Operation.run_steps htally.ordered.innermost_lt, Tracing.run_tryOp_of_ok hu]
  · rw [Operation.run_steps htally.ordered.innermost_lt, Tracing.run_tryOp_of_error he]

/-- A buffer in its own scope, a value for the rest of it, and a second buffer whose scope is ended
again. -/
def innerEnded : Trace :=
  let t := ((Trace.start 0).enterAlloc [.int 4] "shared" .int32 "p").2
  let t := ((t.letVar "x" (.int 1)).2.enterAlloc [.int 4] "local" .int32 "q").2
  { t with tree := t.tree.closed 3 }

theorem run_innerEnded : Trace.Run [.left ⟨3⟩, .entered ⟨3⟩, .entered ⟨1⟩] innerEnded := by
  have hp := (Trace.Run.start 0).perform (.enterAlloc [.int 4] "shared" .int32 "p") rfl
  have hx := hp.perform (.letVar "x" (.int 1)) rfl
  have hq := hx.perform (.enterAlloc [.int 4] "local" .int32 "q") rfl
  exact hq.leave (h := ⟨3⟩) (by decide) rfl

theorem leave_latest_innerEnded :
    (∃ u, innerEnded.leave ⟨1⟩ = .ok u) ∧ (¬∃ u, innerEnded.leave ⟨3⟩ = .ok u) ∧
    innerEnded.tree.opened = [2, 1, 0] ∧
    (∃ e, innerEnded.toBlock = .error e ∧ e.kind = .stackDiscipline) ∧
    ∃ e, (Tracing.closeScope 3 : Tracing Id Unit).run innerEnded = (.error e, innerEnded) := by
  obtain ⟨hleave, -, -, hbuild, hsteps⟩ := leave_latest run_innerEnded
  have hended : ¬∃ u, innerEnded.leave ⟨3⟩ = .ok u := fun h =>
    absurd ((hleave ⟨3⟩ (by decide)).1.1 h) (by decide)
  refine ⟨(hleave ⟨1⟩ (by decide)).1.2 rfl, hended, rfl, hbuild.2 (by decide), ?_⟩
  cases h : innerEnded.leave ⟨3⟩ with
  | ok u => exact absurd ⟨u, h⟩ hended
  | error e => exact ⟨e, (hsteps Id).2.1 ⟨3⟩ e h⟩

end LoopNest
