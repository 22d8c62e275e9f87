import LoopNest.Scope.Lower

/-!
# Recording into the tree of scopes

What is recorded into one scope is a list of statements, of scopes that are closed again, and at the
end perhaps a scope that stays open around all that follows. Where it lies in the tree, and what the
tree is lowered to, is read off the record itself.

* `Plan`, `Plan.reading`: a record, and the blocks that it stands for;
* `Plan.roots`, `Plan.entries`, `Plan.left`: the scopes that it adds, by number;
* `ScopeTree.after`: the tree with these scopes added;
* **`Plan.lowerAll_roots`**: the scopes are lowered to the blocks;
* **`ScopeTree.after_leaf`**, **`ScopeTree.after_closed`**, **`ScopeTree.after_opened`**: the
  operations on the tree add just these scopes;
* **`ScopeTree.lower_after_empty`**: a whole tree.
-/

namespace LoopNest

/-! ## Records -/

/-- What is recorded into one scope, in order. -/
inductive Plan where
  | done
  | leaf (block : Block) (rest : Plan)
  /-- A scope that is closed again. -/
  | closed (form : ScopeForm) (inside rest : Plan)
  /-- A scope that stays open, with all that follows inside it. -/
  | opened (form : ScopeForm) (inside : Plan)

namespace Plan

/-- The blocks that a record stands for. -/
def reading : Plan → Except Error (List Block)
  | done => return []
  | leaf b rest => do
    let bs ← rest.reading
    return b :: bs
  | closed form inside rest => do
    let b ← form.wrap (← inside.reading)
    let bs ← rest.reading
    return b :: bs
  | opened form inside => do
    let b ← form.wrap (← inside.reading)
    return [b]

/-- The number of scopes that a record adds. -/
def size : Plan → Nat
  | done => 0
  | leaf _ rest => 1 + rest.size
  | closed _ inside rest => 1 + inside.size + rest.size
  | opened _ inside => 1 + inside.size

/-- The scopes at the top of a record that starts at number `k`. -/
def roots : Nat → Plan → List Nat
  | _, done => []
  | k, leaf _ rest => k :: rest.roots (k + 1)
  | k, closed _ inside rest => k :: rest.roots (k + 1 + inside.size)
  | k, opened _ _ => [k]

/-- All scopes of a record that starts at number `k`. -/
def entries : Nat → Plan → List ScopeEntry
  | _, done => []
  | k, leaf b rest => ⟨.statement b, false, []⟩ :: rest.entries (k + 1)
  | k, closed form inside rest =>
    ⟨form, false, inside.roots (k + 1)⟩ ::
      (inside.entries (k + 1) ++ rest.entries (k + 1 + inside.size))
  | k, opened form inside => ⟨form, true, inside.roots (k + 1)⟩ :: inside.entries (k + 1)

/-- The scopes that a record leaves open, the innermost first. -/
def left : Nat → Plan → List Nat
  | _, done => []
  | k, leaf _ rest => rest.left (k + 1)
  | k, closed _ inside rest => rest.left (k + 1 + inside.size)
  | k, opened _ inside => inside.left (k + 1) ++ [k]

theorem length_entries (k : Nat) (p : Plan) : (p.entries k).length = p.size := by
  induction p generalizing k with
  | done => rfl
  | leaf b rest ih => rw [entries, List.length_cons, ih, size, Nat.add_comm]
  | closed form inside rest ihi ihr =>
    rw [entries, List.length_cons, List.length_append, ihi, ihr, size]
    omega
  | opened form inside ih => rw [entries, List.length_cons, ih, size, Nat.add_comm]

theorem le_of_mem_left {k i : Nat} {p : Plan} (hi : i ∈ p.left k) : k ≤ i := by
  induction p generalizing k with
  | done => exact absurd hi List.not_mem_nil
  | leaf b rest ih =>
    have := ih hi
    omega
  | closed form inside rest _ ih =>
    have := ih hi
    omega
  | opened form inside ih =>
    obtain hi | hi := List.mem_append.1 hi
    · have := ih hi
      omega
    · exact Nat.le_of_eq (List.mem_singleton.1 hi).symm

/-- A scope that is left open is an implicit one. -/
theorem implicit_of_mem_left {p : Plan} (front : List ScopeEntry) {i : Nat}
    (hi : i ∈ p.left front.length) :
    ∃ e, (front ++ p.entries front.length)[i]? = some e ∧ e.implicit = true := by
  induction p generalizing front with
  | done => exact absurd hi List.not_mem_nil
  | leaf b rest ih =>
    have ih := ih (front ++ [⟨.statement b, false, []⟩]) (by simpa [left] using hi)
    rwa [List.length_append, List.append_assoc] at ih
  | closed form inside rest _ ih =>
    have ih := ih (front ++ ⟨form, false, inside.roots (front.length + 1)⟩ ::
      inside.entries (front.length + 1)) (by
        simpa [left, length_entries, Nat.add_assoc, Nat.add_comm] using hi)
    simpa [entries, length_entries, Nat.add_assoc, Nat.add_comm] using ih
  | opened form inside ih =>
    obtain hi | hi := List.mem_append.1 hi
    · have ih := @ih (front ++ [⟨form, true, inside.roots (front.length + 1)⟩]) (by simpa using hi)
      rwa [List.length_append, List.append_assoc] at ih
    · obtain rfl := List.mem_singleton.1 hi
      exact ⟨⟨form, true, inside.roots (front.length + 1)⟩, by simp [entries], rfl⟩

end Plan

/-! ## Lowering a record -/

theorem ScopeTree.scopeTo_succ {t : ScopeTree} {front back : List ScopeEntry} {e : ScopeEntry}
    (h : t.entries.toList = front ++ e :: back) (n : Nat) :
    t.scopeTo (n + 1) front.length = .node e.form (e.children.map (t.scopeTo n)) := by
  have hget : t.entries[front.length]? = some e := by
    rw [← Array.getElem?_toList, h]
    simp
  rw [scopeTo, hget]

namespace Plan

/-- **The scopes of a record are lowered to the blocks that it stands for.** -/
theorem lowerAll_roots {t : ScopeTree} {p : Plan} (front back : List ScopeEntry) (n : Nat)
    (h : t.entries.toList = front ++ (p.entries front.length ++ back)) (hn : p.size ≤ n) :
    Scope.lowerAll ((p.roots front.length).map (t.scopeTo n)) = p.reading := by
  induction p generalizing front back n with
  | done => rfl
  | leaf b rest ih =>
    obtain ⟨m, rfl⟩ : ∃ m, n = m + 1 := ⟨n - 1, by rw [size] at hn; omega⟩
    have hrest := ih (front ++ [⟨.statement b, false, []⟩]) back (m + 1) (by
      simpa [entries] using h) (by rw [size] at hn; omega)
    rw [List.length_append, List.length_singleton] at hrest
    rw [roots, List.map_cons, ScopeTree.scopeTo_succ h, Scope.lowerAll, hrest]
    rfl
  | closed form inside rest ihi ihr =>
    rw [size] at hn
    obtain ⟨m, rfl⟩ : ∃ m, n = m + 1 := ⟨n - 1, by omega⟩
    have hinside := ihi (front ++ [⟨form, false, inside.roots (front.length + 1)⟩])
      (rest.entries (front.length + 1 + inside.size) ++ back) m (by
        simpa [entries] using h) (by omega)
    have hrest := ihr (front ++ ⟨form, false, inside.roots (front.length + 1)⟩ ::
      inside.entries (front.length + 1)) back (m + 1) (by
        simpa [entries, length_entries, Nat.add_assoc, Nat.add_comm] using h) (by omega)
    rw [List.length_append, List.length_singleton] at hinside
    rw [List.length_append, List.length_cons, length_entries, ← Nat.add_assoc, Nat.add_right_comm]
      at hrest
    rw [roots, List.map_cons, ScopeTree.scopeTo_succ h, Scope.lowerAll, Scope.lower, hinside, hrest,
      reading, bind_assoc]
  | opened form inside ih =>
    rw [size] at hn
    obtain ⟨m, rfl⟩ : ∃ m, n = m + 1 := ⟨n - 1, by omega⟩
    have hinside := ih (front ++ [⟨form, true, inside.roots (front.length + 1)⟩]) back m (by
      simpa [entries] using h) (by omega)
    rw [List.length_append, List.length_singleton] at hinside
    rw [roots, List.map_cons, ScopeTree.scopeTo_succ h, Scope.lowerAll, Scope.lower, hinside,
      reading, bind_assoc]
    rfl

end Plan

/-! ## The operations on the tree -/

/-- A scope with further children. -/
def ScopeEntry.adopt (ids : List Nat) (e : ScopeEntry) : ScopeEntry :=
  { e with children := e.children ++ ids }

theorem ScopeEntry.adopt_nil : adopt [] = id := by
  funext e
  simp [adopt]

theorem ScopeEntry.adopt_comp (ids js : List Nat) : adopt js ∘ adopt ids = adopt (ids ++ js) := by
  funext e
  simp [adopt]

theorem modify_adopt (es : List ScopeEntry) (i : Nat) (ids js : List Nat) :
    (es.modify i (ScopeEntry.adopt ids)).modify i (ScopeEntry.adopt js) =
      es.modify i (ScopeEntry.adopt (ids ++ js)) := by
  rw [List.modify_modify_eq, ScopeEntry.adopt_comp]

theorem modify_append {α : Type} {xs ys : List α} {i : Nat} (hi : i < xs.length) (f : α → α) :
    (xs ++ ys).modify i f = xs.modify i f ++ ys := by
  induction xs generalizing i with
  | nil => exact absurd hi (Nat.not_lt_zero i)
  | cons x xs ih =>
    cases i with
    | zero => rfl
    | succ i =>
      rw [List.cons_append, List.modify_succ_cons, List.modify_succ_cons,
        ih (Nat.lt_of_succ_lt_succ hi), List.cons_append]

theorem modify_length_append {α : Type} (xs ys : List α) (y : α) (f : α → α) :
    (xs ++ y :: ys).modify xs.length f = xs ++ f y :: ys := by
  induction xs with
  | nil => rfl
  | cons x xs ih => rw [List.cons_append, List.length_cons, List.modify_succ_cons, ih,
      List.cons_append]

namespace ScopeTree

/-- Some scope is open, and all that are open have been recorded. -/
structure Ready (t : ScopeTree) : Prop where
  ne_nil : t.opened ≠ []
  lt_size : ∀ i ∈ t.opened, i < t.size

theorem Ready.innermost_lt {t : ScopeTree} (h : t.Ready) :
    t.innermost < t.entries.toList.length := by
  obtain ⟨i, is, his⟩ := List.exists_cons_of_ne_nil h.ne_nil
  have hi : t.innermost = i := by rw [innermost, his]; rfl
  rw [hi]
  exact h.lt_size i (by rw [his]; exact List.mem_cons_self)

theorem ext_toList {t u : ScopeTree} (he : t.entries.toList = u.entries.toList)
    (ho : t.opened = u.opened) : t = u := by
  obtain ⟨⟨es⟩, os⟩ := t
  obtain ⟨⟨fs⟩, ps⟩ := u
  obtain rfl : es = fs := he
  obtain rfl : os = ps := ho
  rfl

/-- The tree after a record. -/
def after (t : ScopeTree) (p : Plan) : ScopeTree where
  entries := t.entries.modify t.innermost (ScopeEntry.adopt (p.roots t.size)) ++
    (p.entries t.size).toArray
  opened := p.left t.size ++ t.opened

theorem toList_after (t : ScopeTree) (p : Plan) : (t.after p).entries.toList =
    t.entries.toList.modify t.innermost (ScopeEntry.adopt (p.roots t.size)) ++
      p.entries t.size := by
  simp [after]

theorem toList_addChild (t : ScopeTree) (form : ScopeForm) (implicit : Bool) :
    (t.addChild form implicit).entries.toList =
      t.entries.toList.modify t.innermost (ScopeEntry.adopt [t.size]) ++
        [⟨form, implicit, []⟩] := by
  rw [addChild, Array.toList_push, Array.toList_modify]
  rfl

theorem size_addChild (t : ScopeTree) (form : ScopeForm) (implicit : Bool) :
    (t.addChild form implicit).size = t.size + 1 := by
  simp [addChild, size]

theorem Ready.addStatement {t : ScopeTree} (h : t.Ready) (b : Block) :
    (t.addStatement b).Ready := by
  have hsize : (t.addStatement b).size = t.size + 1 := t.size_addChild _ _
  exact ⟨h.ne_nil, fun i hi => hsize ▸ Nat.lt_succ_of_lt (h.lt_size i hi)⟩

theorem Ready.enter {t : ScopeTree} (h : t.Ready) (form : ScopeForm) (implicit : Bool) :
    (t.enter form implicit).Ready := by
  have hsize : (t.enter form implicit).size = t.size + 1 := t.size_addChild form implicit
  refine ⟨List.cons_ne_nil _ _, fun i hi => ?_⟩
  rw [hsize]
  obtain rfl | hi := List.mem_cons.1 hi
  · exact Nat.lt_succ_self _
  · exact Nat.lt_succ_of_lt (h.lt_size i hi)

theorem size_after (t : ScopeTree) (p : Plan) : (t.after p).size = t.size + p.size := by
  rw [size, ← Array.length_toList, toList_after, List.length_append, List.length_modify,
    Plan.length_entries]
  rfl

/-- A record after a scope that was entered lies in that scope. -/
theorem toList_after_enter (t : ScopeTree) (form : ScopeForm) (implicit : Bool)
    (p : Plan) : ((t.enter form implicit).after p).entries.toList =
      t.entries.toList.modify t.innermost (ScopeEntry.adopt [t.size]) ++
        ⟨form, implicit, p.roots (t.size + 1)⟩ :: p.entries (t.size + 1) := by
  have hlist : (t.enter form implicit).entries.toList = _ := t.toList_addChild form implicit
  have hsize : (t.enter form implicit).size = t.size + 1 := t.size_addChild form implicit
  have hlen : (t.entries.toList.modify t.innermost (ScopeEntry.adopt [t.size])).length = t.size :=
    List.length_modify _ _ _
  have hinner : (t.enter form implicit).innermost = t.size := rfl
  have hmodify := modify_length_append (t.entries.toList.modify t.innermost
    (ScopeEntry.adopt [t.size])) [] ⟨form, implicit, []⟩ (ScopeEntry.adopt (p.roots (t.size + 1)))
  rw [hlen] at hmodify
  rw [toList_after, hlist, hsize, hinner, hmodify, List.append_assoc]
  rfl

theorem implicit_after_enter {t : ScopeTree} (form : ScopeForm) (implicit : Bool)
    {p : Plan} {i : Nat} (hi : i ∈ p.left (t.size + 1)) :
    ((t.enter form implicit).after p).isImplicit i = true := by
  have hlen : (t.entries.toList.modify t.innermost (ScopeEntry.adopt [t.size]) ++
      [(⟨form, implicit, p.roots (t.size + 1)⟩ : ScopeEntry)]).length = t.size + 1 := by
    rw [List.length_append, List.length_modify]
    rfl
  rw [← hlen] at hi
  obtain ⟨e, he, himp⟩ := Plan.implicit_of_mem_left _ hi
  rw [hlen, List.append_assoc] at he
  rw [isImplicit, ← Array.getElem?_toList, toList_after_enter]
  exact (congrArg (fun o => (o.map ScopeEntry.implicit).getD false) he).trans himp

/-- The tree after a scope that was entered, filled and closed. -/
def filled (t : ScopeTree) (form : ScopeForm) (p : Plan) : ScopeTree :=
  ⟨((t.enter form false).after p).entries, t.opened⟩

theorem size_filled (t : ScopeTree) (form : ScopeForm) (p : Plan) :
    (t.filled form p).size = t.size + 1 + p.size := by
  have hsize : (t.enter form false).size = t.size + 1 := t.size_addChild form false
  exact (size_after _ p).trans (by rw [hsize])

theorem Ready.filled {t : ScopeTree} (h : t.Ready) (form : ScopeForm) (p : Plan) :
    (t.filled form p).Ready := by
  refine ⟨h.ne_nil, fun i hi => ?_⟩
  have hlt := h.lt_size i hi
  rw [size_filled]
  omega

/-- A scope that was entered can be closed after a record inside it. -/
theorem close_after_enter {t : ScopeTree} (h : t.Ready) (form : ScopeForm) (p : Plan) :
    ((t.enter form false).after p).close t.size = .ok (t.filled form p) := by
  have hopened : ((t.enter form false).after p).opened =
      p.left (t.size + 1) ++ t.size :: t.opened := by
    rw [after, ← t.size_addChild form false]
    rfl
  have hleft : ∀ i ∈ p.left (t.size + 1), decide (i ≠ t.size) = true := fun i hi => by
    have hle := Plan.le_of_mem_left hi
    exact decide_eq_true (by omega)
  have hinside : (p.left (t.size + 1) ++ t.size :: t.opened).takeWhile (· ≠ t.size) =
      p.left (t.size + 1) := by
    rw [List.takeWhile_append_of_pos hleft, List.takeWhile_cons_of_neg (by simp), List.append_nil]
  have haround : ((p.left (t.size + 1) ++ t.size :: t.opened).dropWhile (· ≠ t.size)).drop 1 =
      t.opened := by
    rw [List.dropWhile_append_of_pos hleft, List.dropWhile_cons_of_neg (by simp)]
    rfl
  have hnone : (p.left (t.size + 1)).reverse.find?
      (fun s => !((t.enter form false).after p).isImplicit s) = none := by
    refine List.find?_eq_none.2 fun i hi => ?_
    rw [implicit_after_enter form false (List.mem_reverse.1 hi)]
    decide
  rw [close, hopened, if_neg (by simp)]
  simp only [hinside, haround, hnone]
  rw [if_neg (by simpa using h.ne_nil)]
  rfl

theorem after_done (t : ScopeTree) : t.after .done = t := by
  refine ext_toList ?_ rfl
  rw [toList_after, Plan.roots, ScopeEntry.adopt_nil, List.modify_id, Plan.entries, List.append_nil]

/-- **A statement, and a record after it.** -/
theorem after_leaf {t : ScopeTree} (h : t.Ready) (b : Block) (rest : Plan) :
    (t.addStatement b).after rest = t.after (.leaf b rest) := by
  have hsize : (t.addStatement b).size = t.size + 1 := t.size_addChild _ _
  refine ext_toList ?_ ?_
  · have hlist : (t.addStatement b).entries.toList = _ := t.toList_addChild _ _
    have hinner : (t.addStatement b).innermost = t.innermost := rfl
    rw [toList_after, toList_after, hsize, hlist, hinner,
      modify_append (by rw [List.length_modify]; exact h.innermost_lt), modify_adopt,
      List.append_assoc]
    rfl
  · rw [after, after, hsize]
    rfl

/-- **A scope that was closed again, and a record after it.** -/
theorem after_closed {t : ScopeTree} (h : t.Ready) (form : ScopeForm) (inside rest : Plan) :
    (t.filled form inside).after rest = t.after (.closed form inside rest) := by
  refine ext_toList ?_ ?_
  · have hlist : (t.filled form inside).entries.toList = _ := toList_after_enter t form false inside
    have hinner : (t.filled form inside).innermost = t.innermost := rfl
    have hi : t.innermost <
        (t.entries.toList.modify t.innermost (ScopeEntry.adopt [t.size])).length := by
      rw [List.length_modify]
      exact h.innermost_lt
    rw [toList_after, toList_after, hlist, hinner, size_filled, modify_append hi, modify_adopt,
      List.append_assoc]
    rfl
  · rw [after, after, size_filled]
    rfl

/-- **A scope that stays open, and a record inside it.** -/
theorem after_opened (t : ScopeTree) (form : ScopeForm) (inside : Plan) :
    (t.enter form true).after inside = t.after (.opened form inside) := by
  refine ext_toList ?_ ?_
  · rw [toList_after_enter, toList_after]
    rfl
  · have hsize : (t.enter form true).size = t.size + 1 := t.size_addChild form true
    rw [after, after, hsize, Plan.left, List.append_assoc]
    rfl

/-! ## A whole tree -/

theorem ready_empty : empty.Ready := ⟨by decide, by decide⟩

theorem checkClosed_after_empty (p : Plan) : (empty.after p).checkClosed = .ok () := by
  have hopened : (empty.after p).opened = p.left 1 ++ [0] := rfl
  have hnone : (empty.after p).leftOpen? = none := by
    rw [leftOpen?, hopened, List.reverse_append]
    refine List.find?_eq_none.2 fun i hi => ?_
    have hi : i ∈ p.left 1 := List.mem_reverse.1 hi
    obtain ⟨e, he, himp⟩ := Plan.implicit_of_mem_left [⟨.root, false, p.roots 1⟩] hi
    have himplicit : (empty.after p).isImplicit i = true := by
      rw [isImplicit, ← Array.getElem?_toList, toList_after]
      exact (congrArg (fun o => (o.map ScopeEntry.implicit).getD false) he).trans himp
    rw [himplicit]
    decide
  rw [checkClosed, hnone]

/-- **A record in an empty tree is lowered to the one block that it stands for.** -/
theorem lower_after_empty (p : Plan) :
    (empty.after p).lower = p.reading >>= ScopeForm.root.wrap := by
  have hlist : (empty.after p).entries.toList =
      [] ++ ⟨.root, false, p.roots 1⟩ :: (p.entries 1 ++ []) := by
    rw [toList_after, List.append_nil]
    rfl
  have hroots := Plan.lowerAll_roots [⟨.root, false, p.roots 1⟩] [] p.size hlist (Nat.le_refl _)
  have hsize : (empty.after p).size = p.size + 1 := (size_after _ _).trans (Nat.add_comm _ _)
  have hscope := scopeTo_succ hlist p.size
  rw [lower, scope, hsize]
  change Scope.lower ((empty.after p).scopeTo (p.size + 1) 0) = _
  rw [show (0 : Nat) = ([] : List ScopeEntry).length from rfl, hscope, Scope.lower]
  exact congrArg (· >>= ScopeForm.root.wrap) hroots

end ScopeTree

end LoopNest
