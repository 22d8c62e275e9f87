import LoopNest.Proofs.Handles
import LoopNest.Trace.Monad
import Mathlib.Data.List.TakeWhile

/-!
# Operations in steps

An operation on a trace is a program of small steps: it reads the state, checks, and changes one
part of the state after the other. Nothing takes a step back, so an error leaves what the steps
before it have done. But every operation makes its checks before its first change, so as a whole it
does what the operation does at once, and one that fails has changed nothing.

* `Tracing.addScope`, `Tracing.openScope`, `Tracing.closeScope`, `Tracing.createVar`: the steps of
  the scope tree, and of variables;
* `Operation.steps`: the steps of an operation;
* **`Tracing.run_closeScope`**, **`Operation.run_steps`**: what the steps do together.
-/

namespace LoopNest

namespace Tracing

variable {m : Type → Type} [Monad m]

/-! ## Steps -/

/-- Change the tree. -/
def alterTree (f : ScopeTree → ScopeTree) : Tracing m Unit :=
  modify fun t => { t with tree := f t.tree }

/-- Take the number of the next variable. -/
def createVar (type : ElemType) (name : String) : Tracing m Var := do
  let n := (← get).fresh
  modify fun t => { t with fresh := n + 1 }
  return ⟨n, name, type⟩

/-- Put a root view in front of those that are bound. -/
def bindRoot (v : View) : Tracing m Unit := modify fun t => { t with bound := v :: t.bound }

/-- Put a scope at the end, then add its number to the children of the innermost open scope. -/
def addScope (form : ScopeForm) (implicit : Bool) : Tracing m Nat := do
  let tree := (← get).tree
  alterTree fun t => { t with entries := t.entries.push ⟨form, implicit, []⟩ }
  alterTree fun t => { t with entries := t.entries.modify tree.innermost fun n =>
    { n with children := n.children ++ [tree.size] } }
  return tree.size

/-- Add a scope, then push it on the stack of open ones. -/
def openScope (form : ScopeForm) (implicit : Bool) : Tracing m Nat := do
  let id ← addScope form implicit
  alterTree fun t => { t with opened := id :: t.opened }
  return id

/-- Look for the scope on the stack, from the inside; then look at what was opened inside it; then
cut the stack off. -/
def closeScope (id : Nat) : Tracing m Unit := do
  let tree := (← get).tree
  let inside := tree.opened.takeWhile (· ≠ id)
  if inside.length = tree.opened.length then
    if id < tree.size then throw (.stackDiscipline (.notOpen id (tree.describe id)))
    else throw (.stackDiscipline (.unknown id))
  else if inside.length + 1 = tree.opened.length then
    throw (.stackDiscipline .root)
  else
    match inside.reverse.find? fun s => !tree.isImplicit s with
    | some s => throw (.stackDiscipline (.innerOpen (tree.describe id) (tree.describe s)))
    | none => alterTree fun t => { t with opened := t.opened.drop (inside.length + 1) }

/-- An element to store to, or an error. -/
def selectElement (target : View) (selectors : List Selector) :
    Tracing m (Var × List Expr) := do
  match target.select selectors with
  | .error e => throw e
  | .ok (.view _) => throw (.unsupportedOperation .partialStore)
  | .ok (.element buffer indices) => return (buffer, indices)

end Tracing

open Tracing

/-- The steps of an operation. -/
def Operation.steps {m : Type → Type} [Monad m] : Operation → Tracing m (Option OpenScope)
  | newVar type name => do
    let _ ← createVar type name
    return none
  | bindView view => do
    bindRoot view
    return none
  | allocate shape storage type name => do
    let v ← createVar type name
    bindRoot (.root v shape storage)
    let _ ← openScope (.alloc v shape storage) true
    return none
  | enterAlloc shape storage type name => do
    let v ← createVar type name
    bindRoot (.root v shape storage)
    let id ← openScope (.alloc v shape storage) false
    return some ⟨id⟩
  | enterLoop kind decl => do
    match decl.check with
    | .error e => throw e
    | .ok parts =>
      let vars ← parts.mapM fun p => createVar .int32 p.1
      let id ← openScope
        (.loop kind (List.zipWith (fun v p => ⟨v, p.2.1, p.2.2⟩) vars parts)) false
      return some ⟨id⟩
  | letVar name value => do
    let v ← createVar value.type name
    let _ ← openScope (.bind [⟨v, value⟩]) true
    return none
  | store target selectors value => do
    let (buffer, indices) ← selectElement target selectors
    let _ ← addScope (.statement (.store buffer indices value)) false
    return none
  | call type name args => do
    let _ ← addScope (.statement (.eval (.call type name args))) false
    return none
  | evaluate value => do
    let _ ← addScope (.statement (.eval value)) false
    return none
  | fill target _ => throw (.unsupportedOperation (.fill target.buffer))
  | load source => throw (.unsupportedOperation (.wholeLoad source.buffer source.rank))

/-! ## Running steps -/

namespace Tracing

variable {m : Type → Type} [Monad m] [LawfulMonad m]

theorem run_get (t : Trace) : (get : Tracing m Trace).run t = pure (.ok t, t) := by
  have hlift : (get : Tracing m Trace) = ExceptT.lift get := rfl
  rw [hlift, run, ExceptT.run_lift]
  simp

theorem run_modify (f : Trace → Trace) (t : Trace) :
    (modify f : Tracing m Unit).run t = pure (.ok (), f t) := by
  have hlift : (modify f : Tracing m Unit) = ExceptT.lift (modify f) := rfl
  rw [hlift, run, ExceptT.run_lift]
  simp

theorem run_alterTree (f : ScopeTree → ScopeTree) (t : Trace) :
    (alterTree f : Tracing m Unit).run t = pure (.ok (), { t with tree := f t.tree }) :=
  run_modify _ t

theorem run_bindRoot (v : View) (t : Trace) :
    (bindRoot v : Tracing m Unit).run t = pure (.ok (), t.bindView v) :=
  run_modify _ t

theorem run_createVar (type : ElemType) (name : String) (t : Trace) :
    (createVar type name : Tracing m Var).run t =
      pure (.ok (t.newVar type name).1, (t.newVar type name).2) := by
  rw [createVar, run_bind_of_ok (run_get t), run_bind_of_ok (run_modify _ t)]
  rfl

theorem tree_newVars (t : Trace) (type : ElemType) (names : List String) :
    (t.newVars type names).2.tree = t.tree := by
  induction names generalizing t with
  | nil => rfl
  | cons name names ih => exact ih (t.newVar type name).2

theorem run_createVars {parts : List (String × Range × String)} (t : Trace) :
    (parts.mapM fun p => createVar .int32 p.1 : Tracing m (List Var)).run t =
      pure (.ok (t.newVars .int32 (parts.map Prod.fst)).1,
        (t.newVars .int32 (parts.map Prod.fst)).2) := by
  induction parts generalizing t with
  | nil => rfl
  | cons p parts ih =>
    rw [List.mapM_cons, run_bind_of_ok (run_createVar _ _ t), run_bind_of_ok (ih _)]
    rfl

/-- The new scope and the note at its parent may be added in any order, as the parent is there
before. -/
theorem run_addScope (ht : t.tree.innermost < t.tree.size) (form : ScopeForm) (implicit : Bool) :
    (addScope form implicit : Tracing m Nat).run t =
      pure (.ok t.tree.size, { t with tree := t.tree.addChild form implicit }) := by
  rw [addScope, run_bind_of_ok (run_get t), run_bind_of_ok (run_alterTree _ t),
    run_bind_of_ok (run_alterTree _ _), run_return]
  have hentries : ∀ f : ScopeEntry → ScopeEntry,
      (t.tree.entries.push ⟨form, implicit, []⟩).modify t.tree.innermost f =
        (t.tree.entries.modify t.tree.innermost f).push ⟨form, implicit, []⟩ := by
    intro f
    refine Array.ext_getElem? fun i => ?_
    rw [Array.getElem?_modify, Array.getElem?_push, Array.getElem?_push, Array.getElem?_modify,
      Array.size_modify]
    have hsize : t.tree.size = t.tree.entries.size := rfl
    grind
  simp only [hentries]
  rfl

theorem run_openScope (ht : t.tree.innermost < t.tree.size) (form : ScopeForm) (implicit : Bool) :
    (openScope form implicit : Tracing m Nat).run t =
      pure (.ok t.tree.size, { t with tree := t.tree.enter form implicit }) := by
  rw [openScope, run_bind_of_ok (run_addScope ht form implicit),
    run_bind_of_ok (run_alterTree _ _)]
  rfl

/-- **Looking on the stack, looking inside and cutting off** is closing a scope. -/
theorem run_closeScope (h : OpenScope) (t : Trace) :
    (closeScope h.id : Tracing m Unit).run t = (act fun t => t.leave h : Tracing m Unit).run t := by
  have hsplit := List.takeWhile_append_dropWhile (p := (· ≠ h.id)) (l := t.tree.opened)
  have hopen : t.tree.opened.dropWhile (· ≠ h.id) = [] ↔ h.id ∉ t.tree.opened := by
    simp only [List.dropWhile_eq_nil_iff, decide_eq_true_eq]
    exact ⟨fun hall hmem => hall _ hmem rfl, fun hmem s hs heq => hmem (heq ▸ hs)⟩
  have hclose := ScopeTree.close.eq_def t.tree h.id
  rw [closeScope, run_bind_of_ok (run_get t)]
  dsimp only at hclose ⊢
  generalize t.tree.opened.takeWhile (· ≠ h.id) = inside at hsplit hclose ⊢
  generalize t.tree.opened.dropWhile (· ≠ h.id) = rest at hsplit hopen hclose
  cases rest with
  | nil =>
    rw [List.append_nil] at hsplit
    rw [if_pos (hopen.1 rfl)] at hclose
    rw [if_pos (congrArg List.length hsplit)]
    split_ifs at hclose ⊢ <;>
      rw [run_throw, run_act_of_error (Trace.leave_eq_error_iff.2 hclose)]
  | cons s around =>
    have hmem : ¬h.id ∉ t.tree.opened := fun hmem => List.cons_ne_nil s around (hopen.2 hmem)
    have hlength := congrArg List.length hsplit
    rw [List.length_append, List.length_cons] at hlength
    rw [if_neg hmem, List.drop_succ_cons, List.drop_zero] at hclose
    rw [if_neg (by omega)]
    cases around with
    | nil =>
      rw [List.isEmpty_nil, if_pos rfl] at hclose
      rw [List.length_nil] at hlength
      rw [if_pos hlength, run_throw,
        run_act_of_error (Trace.leave_eq_error_iff.2 hclose)]
    | cons a around =>
      rw [List.length_cons] at hlength
      rw [List.isEmpty_cons, if_neg Bool.false_ne_true] at hclose
      rw [if_neg (by omega)]
      cases hfind : inside.reverse.find? fun s => !t.tree.isImplicit s with
      | some s =>
        rw [hfind] at hclose
        rw [run_throw, run_act_of_error (Trace.leave_eq_error_iff.2 hclose)]
      | none =>
        rw [hfind] at hclose
        rw [run_alterTree, run_act_of_ok]
        rw [Trace.leave, hclose, ← hsplit]
        simp [List.drop_append]

end Tracing

namespace Operation

variable {m : Type → Type} [Monad m] [LawfulMonad m] {t : Trace}

theorem run_steps_enterLoop (ht : t.tree.innermost < t.tree.size) (kind : LoopKind)
    (decl : LoopDecl) : ((enterLoop kind decl).steps : Tracing m _).run t =
      (tryOp fun t => perform t (enterLoop kind decl) : Tracing m _).run t := by
  rw [steps]
  cases hcheck : decl.check with
  | error e =>
    rw [run_throw, run_tryOp_of_error]
    rw [perform, Trace.enterLoop, hcheck]
    rfl
  | ok parts =>
    rw [run_bind_of_ok (run_createVars t), run_bind_of_ok (run_openScope ?_ _ _), run_return,
      run_tryOp_of_ok]
    · rw [perform, Trace.enterLoop, hcheck]
      rfl
    · rwa [tree_newVars]

theorem run_steps_store (ht : t.tree.innermost < t.tree.size) (target : View)
    (selectors : List Selector) (value : Expr) :
    ((store target selectors value).steps : Tracing m _).run t =
      (tryOp fun t => perform t (store target selectors value) : Tracing m _).run t := by
  rw [steps, selectElement]
  cases hselect : target.select selectors with
  | error e =>
    rw [run_bind_of_error (run_throw e t), run_tryOp_of_error]
    rw [perform, Trace.store, hselect]
    rfl
  | ok s =>
    cases s with
    | view v =>
      rw [run_bind_of_error (run_throw _ t), run_tryOp_of_error]
      rw [perform, Trace.store, hselect]
      rfl
    | element buffer indices =>
      rw [run_bind_of_ok (run_return _ t), run_bind_of_ok (run_addScope ht _ _), run_return,
        run_tryOp_of_ok]
      rw [perform, Trace.store, hselect]
      rfl

/-- **The steps of an operation do together what the operation does at once.** One that fails has
changed nothing. -/
theorem run_steps (ht : t.tree.innermost < t.tree.size) (o : Operation) :
    (o.steps : Tracing m _).run t = (tryOp fun t => o.perform t : Tracing m _).run t := by
  cases o with
  | newVar type name =>
    rw [steps, run_bind_of_ok (run_createVar type name t)]
    rfl
  | bindView view =>
    rw [steps, run_bind_of_ok (run_bindRoot view t)]
    rfl
  | allocate shape storage type name =>
    rw [steps, run_bind_of_ok (run_createVar type name t), run_bind_of_ok (run_bindRoot _ _),
      run_bind_of_ok (run_openScope (by exact ht) _ _)]
    rfl
  | enterAlloc shape storage type name =>
    rw [steps, run_bind_of_ok (run_createVar type name t), run_bind_of_ok (run_bindRoot _ _),
      run_bind_of_ok (run_openScope (by exact ht) _ _)]
    rfl
  | enterLoop kind decl => exact run_steps_enterLoop ht kind decl
  | letVar name value =>
    rw [steps, run_bind_of_ok (run_createVar value.type name t),
      run_bind_of_ok (run_openScope (by exact ht) _ _)]
    rfl
  | store target selectors value => exact run_steps_store ht target selectors value
  | call type name args =>
    rw [steps, run_bind_of_ok (run_addScope ht _ _)]
    rfl
  | evaluate value =>
    rw [steps, run_bind_of_ok (run_addScope ht _ _)]
    rfl
  | fill target value => rfl
  | load source => rfl

end Operation

end LoopNest
