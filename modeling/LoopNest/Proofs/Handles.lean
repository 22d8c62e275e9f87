import LoopNest.Proofs.Script
import LoopNest.Proofs.Slicing
import Mathlib.Data.Fintype.Defs
import Mathlib.Logic.Function.Basic

/-!
# Handles of several traces

The handle of a scope is its number, and the scopes of every trace are numbered alike. A trace that
is given the handle of another one therefore looks for a scope of its own: it refuses the handle
where it has no scope of that number that could be closed, and else closes this scope.

* `ScopeTree.Ordered`, `ScopeTree.CanClose`, `ScopeTree.closed`: the open scopes, and the end of
  one;
* **`ScopeTree.close_eq`**: which scopes can be closed, and how;
* `Operation`, `Session`, `Session.Reachable`: traces that are used in turn, and their handles;
* `Session.Valid`, **`Session.Reachable.valid`**: what holds of all traces and handles;
* **`leave_with_handle`**: a handle in the hands of any trace.
-/

namespace LoopNest

/-! ## The end of a scope -/

theorem takeWhile_ne_eq_filter {l : List Nat} {i : Nat} (hl : l.Pairwise (· > ·)) (hi : i ∈ l) :
    l.takeWhile (· ≠ i) = l.filter (i < ·) := by
  induction hl with
  | nil => exact nomatch hi
  | @cons a l ha hl ih =>
    by_cases hai : a = i
    · subst hai
      have hnone : ∀ x ∈ l, ¬a < x := fun x hx => by have := ha x hx; omega
      rw [List.takeWhile_cons_of_neg (by simp), List.filter_cons_of_neg (by simp),
        List.filter_eq_nil_iff.2 (by simpa using hnone)]
    · have hi' : i ∈ l := (List.mem_cons.1 hi).resolve_left fun h => hai h.symm
      have hgt : i < a := ha i hi'
      rw [List.takeWhile_cons_of_pos (by simpa using hai),
        List.filter_cons_of_pos (by simpa using hgt), ih hi']

theorem drop_dropWhile_ne_eq_filter {l : List Nat} {i : Nat} (hl : l.Pairwise (· > ·))
    (hi : i ∈ l) : (l.dropWhile (· ≠ i)).drop 1 = l.filter (· < i) := by
  induction hl with
  | nil => exact nomatch hi
  | @cons a l ha hl ih =>
    by_cases hai : a = i
    · subst hai
      have hall : ∀ x ∈ l, x < a := ha
      rw [List.dropWhile_cons_of_neg (by simp), List.filter_cons_of_neg (by simp), List.drop_one,
        List.tail_cons, List.filter_eq_self.2 (by simpa using hall)]
    · have hi' : i ∈ l := (List.mem_cons.1 hi).resolve_left fun h => hai h.symm
      have hgt : i < a := ha i hi'
      rw [List.dropWhile_cons_of_pos (by simpa using hai),
        List.filter_cons_of_neg (by simp; omega), ih hi']

namespace ScopeTree

variable {t : ScopeTree} {id : Nat}

/-- Of the open scopes the latest comes first, and the root is one of them. -/
structure Ordered (t : ScopeTree) : Prop where
  descending : t.opened.Pairwise (· > ·)
  root_mem : 0 ∈ t.opened
  lt_size : ∀ i ∈ t.opened, i < t.size

theorem Ordered.innermost_mem (ht : t.Ordered) : t.innermost ∈ t.opened := by
  rw [innermost, List.headD_eq_head?_getD]
  cases hopened : t.opened with
  | nil => exact absurd ht.root_mem (by simp [hopened])
  | cons i is => exact List.mem_cons_self

theorem Ordered.innermost_lt (ht : t.Ordered) : t.innermost < t.size :=
  ht.lt_size _ ht.innermost_mem

/-- A scope is open, and all that are open inside it are implicit. -/
def CanClose (t : ScopeTree) (id : Nat) : Prop :=
  id ∈ t.opened ∧ ∀ s ∈ t.opened, id < s → t.isImplicit s = true

instance (t : ScopeTree) (id : Nat) : Decidable (t.CanClose id) :=
  inferInstanceAs (Decidable (_ ∧ _))

/-- The tree in which a scope and all inside it are no longer open. -/
def closed (t : ScopeTree) (id : Nat) : ScopeTree := { t with opened := t.opened.filter (· < id) }

theorem kind_of_close {e : Error} (h : t.close id = .error e) : e.kind = .stackDiscipline := by
  unfold close at h
  split at h
  · split at h <;> exact Except.error.inj h ▸ rfl
  · dsimp only at h
    split at h
    · exact Except.error.inj h ▸ rfl
    · split at h
      · exact Except.error.inj h ▸ rfl
      · exact nomatch h

/-- **A scope above the root is closed exactly if it is open around implicit scopes only.** -/
theorem close_eq (ht : t.Ordered) (h0 : 0 < id) {u : ScopeTree} :
    t.close id = .ok u ↔ t.CanClose id ∧ u = t.closed id := by
  by_cases hid : id ∈ t.opened
  · have haround : (t.opened.filter (· < id)).isEmpty = false := by
      rw [List.isEmpty_eq_false_iff_exists_mem]
      exact ⟨0, List.mem_filter.2 ⟨ht.root_mem, by simpa using h0⟩⟩
    unfold close
    rw [if_neg (not_not.2 hid)]
    simp only [takeWhile_ne_eq_filter ht.descending hid,
      drop_dropWhile_ne_eq_filter ht.descending hid, haround, Bool.false_eq_true, if_false]
    split
    · next s hs =>
      have himplicit : t.isImplicit s = false := by simpa using List.find?_some hs
      obtain ⟨hs, hlt⟩ := List.mem_filter.1 (List.mem_reverse.1 (List.mem_of_find?_eq_some hs))
      constructor
      · intro h
        exact nomatch h
      · rintro ⟨⟨-, hall⟩, -⟩
        rw [hall s hs (by simpa using hlt)] at himplicit
        exact nomatch himplicit
    · next hnone =>
      rw [List.find?_eq_none] at hnone
      have hall : ∀ s ∈ t.opened, id < s → t.isImplicit s = true := fun s hs hlt => by
        simpa using hnone s (List.mem_reverse.2 (List.mem_filter.2 ⟨hs, by simpa using hlt⟩))
      constructor
      · intro h
        exact ⟨⟨hid, hall⟩, (Except.ok.inj h).symm⟩
      · rintro ⟨-, rfl⟩
        rfl
  · constructor
    · intro h
      unfold close at h
      rw [if_pos hid] at h
      split at h <;> exact nomatch h
    · intro h
      exact absurd h.1.1 hid

/-- A number that no scope has is refused as such. -/
theorem close_of_size_le (ht : t.Ordered) (hid : t.size ≤ id) :
    t.close id = .error (.stackDiscipline (.unknown id)) := by
  have hnot : id ∉ t.opened := fun h => absurd (ht.lt_size id h) (by omega)
  rw [close, if_pos hnot, if_neg (by omega)]

/-- The root cannot be closed. -/
theorem close_root (ht : t.Ordered) : t.close 0 = .error (.stackDiscipline .root) := by
  have haround : ((t.opened.dropWhile (· ≠ 0)).drop 1).isEmpty = true := by
    rw [drop_dropWhile_ne_eq_filter ht.descending ht.root_mem, List.filter_eq_nil_iff.2 (by simp)]
    rfl
  rw [close, if_neg (not_not.2 ht.root_mem)]
  simp only [haround, if_true]

/-- What is closed is a scope above the root, which could be. -/
theorem close_eq_ok (ht : t.Ordered) {u : ScopeTree} (hu : t.close id = .ok u) :
    0 < id ∧ t.CanClose id ∧ u = t.closed id := by
  rcases Nat.eq_zero_or_pos id with rfl | h0
  · exact nomatch (close_root ht).symm.trans hu
  · exact ⟨h0, (close_eq ht h0).1 hu⟩

theorem ordered_empty : empty.Ordered := ⟨by decide, by decide, by decide⟩

theorem Ordered.addChild (ht : t.Ordered) (form : ScopeForm) (implicit : Bool) :
    (t.addChild form implicit).Ordered := by
  have hsize := t.size_addChild form implicit
  exact ⟨ht.descending, ht.root_mem, fun i hi => hsize ▸ Nat.lt_succ_of_lt (ht.lt_size i hi)⟩

theorem Ordered.addStatement (ht : t.Ordered) (b : Block) : (t.addStatement b).Ordered :=
  ht.addChild _ _

theorem Ordered.enter (ht : t.Ordered) (form : ScopeForm) (implicit : Bool) :
    (t.enter form implicit).Ordered := by
  have hsize : (t.enter form implicit).size = t.size + 1 := t.size_addChild form implicit
  refine ⟨.cons ht.lt_size ht.descending, List.mem_cons_of_mem _ ht.root_mem, fun i hi => ?_⟩
  rw [hsize]
  rcases List.mem_cons.1 hi with rfl | hi
  · exact Nat.lt_succ_self _
  · exact Nat.lt_succ_of_lt (ht.lt_size i hi)

theorem Ordered.closed (ht : t.Ordered) (h0 : 0 < id) : (t.closed id).Ordered := by
  refine ⟨ht.descending.filter _, List.mem_filter.2 ⟨ht.root_mem, by simpa using h0⟩, ?_⟩
  intro i hi
  exact ht.lt_size i (List.mem_of_mem_filter hi)

end ScopeTree

theorem Trace.leave_eq_error_iff {t : Trace} {h : OpenScope} {e : Error} :
    t.leave h = .error e ↔ t.tree.close h.id = .error e := by
  unfold leave
  cases hclose : t.tree.close h.id with
  | ok u => exact ⟨fun h => (nomatch h), fun h => (nomatch h)⟩
  | error e' =>
    exact ⟨fun h => congrArg Except.error (Except.error.inj h), fun h => Except.error.inj h ▸ rfl⟩

/-- A handle above the root ends the scope that can be closed. -/
theorem Trace.leave_eq_ok_iff {t : Trace} (ht : t.tree.Ordered) {h : OpenScope} (h0 : 0 < h.id)
    {u : Trace} : t.leave h = .ok u ↔
      t.tree.CanClose h.id ∧ u = { t with tree := t.tree.closed h.id } := by
  rw [leave, bind_eq_ok_iff]
  constructor
  · rintro ⟨tree, htree, hu⟩
    obtain ⟨hcan, rfl⟩ := (ScopeTree.close_eq ht h0).1 htree
    exact ⟨hcan, (Except.ok.inj hu).symm⟩
  · rintro ⟨hcan, rfl⟩
    exact ⟨_, (ScopeTree.close_eq ht h0).2 ⟨hcan, rfl⟩, rfl⟩

/-! ## Operations as data -/

/-- What a client asks of a trace, but for the end of a scope. -/
inductive Operation where
  | newVar (type : ElemType) (name : String)
  | bindView (view : View)
  | allocate (shape : List Expr) (storage : String) (type : ElemType) (name : String)
  | enterAlloc (shape : List Expr) (storage : String) (type : ElemType) (name : String)
  | enterLoop (kind : LoopKind) (decl : LoopDecl)
  | letVar (name : String) (value : Expr)
  | store (target : View) (selectors : List Selector) (value : Expr)
  | call (type : ElemType) (name : String) (args : List Expr)
  | evaluate (value : Expr)
  | fill (target : View) (value : Expr)
  | load (source : View)

namespace Operation

/-- The trace after an operation, and the handle that it issues. -/
def perform (t : Trace) : Operation → Except Error (Option OpenScope × Trace)
  | newVar type name => return (none, (t.newVar type name).2)
  | bindView view => return (none, t.bindView view)
  | allocate shape storage type name => return (none, (t.allocate shape storage type name).2)
  | enterAlloc shape storage type name =>
    let (r, u) := t.enterAlloc shape storage type name
    return (some r.2, u)
  | enterLoop kind decl => do
    let (r, u) ← t.enterLoop kind decl
    return (some r.1, u)
  | letVar name value => return (none, (t.letVar name value).2)
  | store target selectors value => do return (none, ← t.store target selectors value)
  | call type name args => return (none, t.call type name args)
  | evaluate value => return (none, t.evaluate value)
  | fill target value => do return (none, ← t.fill target value)
  | load source => do
    let _ ← t.load source
    return (none, t)

/-- What operations do to the scopes, and the handle they issue. -/
inductive Grows (t : ScopeTree) : Option OpenScope → ScopeTree → Prop where
  | same : Grows t none t
  | statement (b : Block) : Grows t none (t.addStatement b)
  | implicit (form : ScopeForm) : Grows t none (t.enter form true)
  | explicit (form : ScopeForm) : Grows t (some ⟨t.size⟩) (t.enter form false)

/-- The only handle that is issued is that of a scope which was just opened. -/
theorem grows_of_perform {t u : Trace} {o : Operation} {h? : Option OpenScope}
    (h : o.perform t = .ok (h?, u)) : Grows t.tree h? u.tree := by
  cases o with
  | newVar | bindView =>
    obtain ⟨rfl, rfl⟩ := Prod.mk.inj (Except.ok.inj h)
    exact .same
  | allocate | letVar =>
    obtain ⟨rfl, rfl⟩ := Prod.mk.inj (Except.ok.inj h)
    exact .implicit _
  | enterAlloc =>
    obtain ⟨rfl, rfl⟩ := Prod.mk.inj (Except.ok.inj h)
    exact .explicit _
  | enterLoop kind decl =>
    obtain ⟨r, hr, h⟩ := bind_eq_ok_iff.1 h
    obtain ⟨rfl, rfl⟩ := Prod.mk.inj (Except.ok.inj h)
    obtain ⟨parts, hparts, -⟩ := bind_eq_ok_iff.1 hr
    obtain rfl := Except.ok.inj ((Script.enterLoop_eq hparts kind t).symm.trans hr)
    exact .explicit _
  | store target selectors value =>
    obtain ⟨v, hv, h⟩ := bind_eq_ok_iff.1 h
    obtain ⟨rfl, rfl⟩ := Prod.mk.inj (Except.ok.inj h)
    obtain ⟨b, is, -, rfl⟩ := Trace.store_eq_ok_iff.1 hv
    exact .statement _
  | call | evaluate =>
    obtain ⟨rfl, rfl⟩ := Prod.mk.inj (Except.ok.inj h)
    exact .statement _
  | fill | load => exact nomatch h

variable {t u : ScopeTree} {h? : Option OpenScope}

theorem Grows.ordered (h : Grows t h? u) (ht : t.Ordered) : u.Ordered := by
  cases h with
  | same => exact ht
  | statement b => exact ht.addStatement b
  | implicit form => exact ht.enter form true
  | explicit form => exact ht.enter form false

theorem Grows.size_le (h : Grows t h? u) : t.size ≤ u.size := by
  have hsize : ∀ form implicit, t.size ≤ (t.addChild form implicit).size := fun form implicit => by
    rw [ScopeTree.size_addChild]
    omega
  cases h with
  | same => exact le_rfl
  | statement b => exact hsize _ _
  | implicit form => exact hsize _ _
  | explicit form => exact hsize _ _

/-- An issued handle is a number that no scope had before. -/
theorem Grows.handle {h : OpenScope} (hg : Grows t (some h) u) :
    h.id = t.size ∧ t.size < u.size := by
  cases hg with
  | explicit form =>
    have hsize : (t.enter form false).size = t.size + 1 := t.size_addChild form false
    exact ⟨rfl, by omega⟩

end Operation

/-! ## Several traces -/

/-- Traces that are used in turn. Their variables are numbered together. -/
structure Session (n : Nat) where
  /-- The number of the next variable. -/
  fresh : Nat
  traces : Fin n → Trace
  /-- The handles that have not been used, each with the trace that issued it. -/
  held : List (Fin n × OpenScope)

namespace Session

variable {n : Nat}

/-- Nothing has been done. -/
def start (n fresh : Nat) : Session n := ⟨fresh, fun _ => .start fresh, []⟩

/-- A trace that is to be used next. -/
def trace (S : Session n) (j : Fin n) : Trace := { S.traces j with fresh := S.fresh }

/-- An operation on one trace. -/
def perform (S : Session n) (j : Fin n) (o : Operation) : Except Error Unit × Session n :=
  match o.perform (S.trace j) with
  | .ok (h?, t) => (.ok (), ⟨t.fresh, Function.update S.traces j t,
      h?.toList.map (fun h => (j, h)) ++ S.held⟩)
  | .error e => (.error e, S)

/-- The end of a scope on one trace, by a handle, which is used up even if this fails. -/
def leave (S : Session n) (j : Fin n) (k : Fin n × OpenScope) : Except Error Unit × Session n :=
  match (S.trace j).leave k.2 with
  | .ok t => (.ok (), ⟨t.fresh, Function.update S.traces j t, S.held.erase k⟩)
  | .error e => (.error e, { S with held := S.held.erase k })

/-- What can come about from the start, by any operations on any traces in any order. -/
inductive Reachable : Session n → Prop where
  | start (fresh : Nat) : Reachable (start n fresh)
  | perform {S : Session n} (hS : Reachable S) (j : Fin n) (o : Operation) :
    Reachable (S.perform j o).2
  | leave {S : Session n} (hS : Reachable S) (j : Fin n) {k : Fin n × OpenScope}
    (hk : k ∈ S.held) : Reachable (S.leave j k).2

/-- The scopes of every trace are in order, and a handle is the number of a scope of its trace,
which is not the root. -/
structure Valid (S : Session n) : Prop where
  ordered : ∀ j, (S.traces j).tree.Ordered
  pos : ∀ k ∈ S.held, 0 < k.2.id
  lt_size : ∀ k ∈ S.held, k.2.id < (S.traces k.1).tree.size

theorem valid_start (fresh : Nat) : (start n fresh).Valid :=
  ⟨fun _ => ScopeTree.ordered_empty, fun _ h => (nomatch h), fun _ h => (nomatch h)⟩

variable {S : Session n}

/-- One trace is replaced by another with as many scopes at least, and handles are added for it. -/
theorem Valid.replace (hS : S.Valid) {j : Fin n} {t : Trace} (ht : t.tree.Ordered)
    (hle : (S.traces j).tree.size ≤ t.tree.size) {held : List (Fin n × OpenScope)}
    (hheld : ∀ k ∈ held, k ∈ S.held ∨ k.1 = j ∧ 0 < k.2.id ∧ k.2.id < t.tree.size) (fresh : Nat) :
    (⟨fresh, Function.update S.traces j t, held⟩ : Session n).Valid := by
  refine ⟨fun i => ?_, fun k hk => ?_, fun k hk => ?_⟩
  · by_cases hij : i = j
    · subst hij
      simpa using ht
    · simpa [hij] using hS.ordered i
  · rcases hheld k hk with hk | ⟨-, h0, -⟩
    · exact hS.pos k hk
    · exact h0
  · rcases hheld k hk with hk | ⟨hkj, -, hlt⟩
    · have hlt := hS.lt_size k hk
      by_cases hkj : k.1 = j
      · rw [hkj] at hlt
        simpa [hkj] using hlt.trans_le hle
      · simpa [hkj] using hlt
    · simpa [hkj] using hlt

theorem Valid.perform (hS : S.Valid) (j : Fin n) (o : Operation) : (S.perform j o).2.Valid := by
  unfold Session.perform
  split
  · next h? t ht =>
    have hgrows : Operation.Grows (S.trace j).tree h? t.tree := Operation.grows_of_perform ht
    have hroot : 0 < (S.traces j).tree.size := (hS.ordered j).lt_size 0 (hS.ordered j).root_mem
    refine hS.replace (hgrows.ordered (hS.ordered j)) hgrows.size_le (fun k hk => ?_) t.fresh
    rcases List.mem_append.1 hk with hk | hk
    · obtain ⟨h, hh, rfl⟩ := List.mem_map.1 hk
      obtain rfl := Option.mem_toList.1 hh
      obtain ⟨hid, hlt⟩ := hgrows.handle
      exact .inr ⟨rfl, hid ▸ hroot, hid ▸ hlt⟩
    · exact .inl hk
  · exact hS

theorem trace_leave_eq_ok_iff (hS : S.Valid) (j : Fin n) {h : OpenScope} (h0 : 0 < h.id)
    {t : Trace} : (S.trace j).leave h = .ok t ↔ (S.traces j).tree.CanClose h.id ∧
      t = { S.trace j with tree := (S.traces j).tree.closed h.id } :=
  Trace.leave_eq_ok_iff (t := S.trace j) (hS.ordered j) h0

theorem Valid.leave (hS : S.Valid) (j : Fin n) {k : Fin n × OpenScope} (hk : k ∈ S.held) :
    (S.leave j k).2.Valid := by
  have hheld : ∀ l ∈ S.held.erase k, l ∈ S.held := fun l => List.mem_of_mem_erase
  unfold Session.leave
  split
  · next t ht =>
    obtain ⟨-, rfl⟩ := (trace_leave_eq_ok_iff hS j (hS.pos k hk)).1 ht
    refine hS.replace ?_ ?_ (fun l hl => .inl (hheld l hl)) _
    · exact (hS.ordered j).closed (hS.pos k hk)
    · exact le_rfl
  · exact ⟨hS.ordered, fun l hl => hS.pos l (hheld l hl), fun l hl => hS.lt_size l (hheld l hl)⟩

/-- **Every step keeps the scopes and the handles in order**, so they always are. -/
theorem Reachable.valid (hS : S.Reachable) : S.Valid := by
  induction hS with
  | start fresh => exact valid_start fresh
  | perform _ j o ih => exact ih.perform j o
  | leave _ j hk ih => exact ih.leave j hk

end Session

/-- **A handle in the hands of any trace.** Whatever was done before, on all traces: a handle that
was issued by one trace ends a scope of another exactly if the other has a scope of the same number
open, around implicit scopes only; then this scope is closed, and nothing else happens. Any other
handle is refused for want of discipline, and no trace is changed; if the trace has no scope of its
number, it is refused as that of another trace. -/
theorem leave_with_handle {n : Nat} {S : Session n} (hS : S.Reachable) {i j : Fin n} {h : OpenScope}
    (hh : (i, h) ∈ S.held) :
    ((S.traces j).tree.CanClose h.id → S.leave j (i, h) = (.ok (), ⟨S.fresh,
      Function.update S.traces j { S.trace j with tree := (S.traces j).tree.closed h.id },
      S.held.erase (i, h)⟩)) ∧
    (¬(S.traces j).tree.CanClose h.id → ∃ e, e.kind = .stackDiscipline ∧
      S.leave j (i, h) = (.error e, { S with held := S.held.erase (i, h) })) ∧
    ((S.traces j).tree.size ≤ h.id →
      (S.leave j (i, h)).1 = .error (.stackDiscipline (.unknown h.id))) := by
  have hv := hS.valid
  have h0 : 0 < h.id := hv.pos _ hh
  refine ⟨fun hcan => ?_, fun hcan => ?_, fun hsize => ?_⟩
  · have hleave := (Session.trace_leave_eq_ok_iff hv j h0).2 ⟨hcan, rfl⟩
    simp only [Session.leave, hleave]
    rfl
  · cases hleave : (S.trace j).leave h with
    | ok t => exact absurd ((Session.trace_leave_eq_ok_iff hv j h0).1 hleave).1 hcan
    | error e =>
      refine ⟨e, ScopeTree.kind_of_close (Trace.leave_eq_error_iff.1 hleave), ?_⟩
      simp only [Session.leave, hleave]
  · have hleave : (S.trace j).leave h = .error (.stackDiscipline (.unknown h.id)) :=
      Trace.leave_eq_error_iff.2 (ScopeTree.close_of_size_le (hv.ordered j) hsize)
    simp only [Session.leave, hleave]

/-- Two loops are open in the first of two traces, and one in the second. -/
def crossed : Session 2 :=
  let two : Range := ⟨.int 0, .int 2, .int 1⟩
  let S := ((Session.start 2 0).perform 0 (.enterLoop .spatial (.one "i" two))).2
  let S := (S.perform 0 (.enterLoop .spatial (.one "k" two))).2
  (S.perform 1 (.enterLoop .reduce (.one "j" two))).2

theorem reachable_crossed : crossed.Reachable :=
  (((Session.Reachable.start 0).perform 0 _).perform 0 _).perform 1 _

theorem leave_with_handle_crossed :
    (0, ⟨1⟩) ∈ crossed.held ∧ (crossed.leave 1 (0, ⟨1⟩)).1 = .ok () ∧
    (0, ⟨2⟩) ∈ crossed.held ∧
    (crossed.leave 1 (0, ⟨2⟩)).1 = .error (.stackDiscipline (.unknown 2)) := by
  have h1 : ((0, ⟨1⟩) : Fin 2 × OpenScope) ∈ crossed.held := by decide
  have h2 : ((0, ⟨2⟩) : Fin 2 × OpenScope) ∈ crossed.held := by decide
  obtain ⟨hclose, -, -⟩ := leave_with_handle reachable_crossed (j := 1) h1
  obtain ⟨-, -, hunknown⟩ := leave_with_handle reachable_crossed (j := 1) h2
  exact ⟨h1, congrArg Prod.fst (hclose (by decide)), h2, hunknown (by decide)⟩

/-- **A handle is not tied to its trace**: it may end a scope of another. -/
theorem not_foreign_handle_refused : ¬∀ S : Session 2, S.Reachable → ∀ i j h, i ≠ j →
    (i, h) ∈ S.held → (∃ e, e.kind = .stackDiscipline ∧ (S.leave j (i, h)).1 = .error e) ∧
      ((S.leave j (i, h)).2.traces j).tree = (S.traces j).tree := by
  intro hall
  have h1 : ((0, ⟨1⟩) : Fin 2 × OpenScope) ∈ crossed.held := by decide
  obtain ⟨⟨e, -, he⟩, -⟩ := hall crossed reachable_crossed 0 1 ⟨1⟩ (by decide) h1
  have hok : (crossed.leave 1 (0, ⟨1⟩)).1 = .ok () := rfl
  exact nomatch hok.symm.trans he

end LoopNest
