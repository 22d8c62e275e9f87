import LoopNest.Kernel.Build
import LoopNest.Proofs.Renaming

/-!
# Recording and lowering over other variables

What is recorded, selected, lowered or refused over relabelled variables is what was recorded,
selected, lowered or refused before, relabelled; an error keeps its kind.

* `exchange`: an outcome with other values and other errors;
* `Error.relabel`, `View.relabel`, `ScopeTree.relabel`, `Trace.relabel`, `Signature.relabel`,
  `Kernel.relabel`: everything around a body;
* **`Block.relabel_unroll`**, **`ScopeTree.relabel_lower`**: from scopes to statements;
* **`View.relabel_select`**, **`ScopeTree.relabel_close`**: selections, and the end of a scope;
* **`Trace.relabel_kernel`**: a trace lowered, with the passes.
-/

namespace LoopNest

/-! ## Outcomes -/

section

variable {ε δ α β γ ζ : Type}

/-- An outcome with its value and its error exchanged. -/
def exchange (g : ε → δ) (f : α → β) : Except ε α → Except δ β
  | .ok a => .ok (f a)
  | .error e => .error (g e)

@[simp] theorem exchange_ok (g : ε → δ) (f : α → β) (a : α) :
    exchange g f (.ok a) = .ok (f a) := rfl

@[simp] theorem exchange_error (g : ε → δ) (f : α → β) (e : ε) :
    exchange g f (.error e) = .error (g e) := rfl

theorem exchange_bind {g : ε → δ} {f : α → β} {h : γ → ζ} {x : Except ε α} {y : Except δ β}
    {k : α → Except ε γ} {l : β → Except δ ζ} (hxy : y = exchange g f x)
    (hkl : ∀ a, l (f a) = exchange g h (k a)) : y >>= l = exchange g h (x >>= k) := by
  rw [hxy]
  cases x with
  | ok a => exact hkl a
  | error e => rfl

theorem exchange_mapM {g : ε → δ} {f : α → β} {h : γ → ζ} {k : α → Except ε γ}
    {l : β → Except δ ζ} (hkl : ∀ a, l (f a) = exchange g h (k a)) (as : List α) :
    (as.map f).mapM l = exchange g (List.map h) (as.mapM k) := by
  induction as with
  | nil => rfl
  | cons a as ih =>
    rw [List.map_cons, List.mapM_cons, List.mapM_cons]
    exact exchange_bind (hkl a) fun c => exchange_bind ih fun cs => rfl

end

section

variable (r : Relabelling)

/-! ## Errors -/

/-- What a message says of a scope. -/
def ScopeName.relabel : ScopeName → ScopeName
  | root => root
  | alloc v => alloc (r.var v)
  | loop k vs => loop k (vs.map r.var)
  | bind vs => bind (vs.map r.var)
  | statement => statement

/-- A malformed description. -/
def ConfigurationFault.relabel : ConfigurationFault → ConfigurationFault
  | negativeExtent v n => negativeExtent (r.var v) n
  | copyOverflow v k s => copyOverflow (r.var v) k s
  | fault => fault

/-- An operation that is refused. -/
def OperationFault.relabel : OperationFault → OperationFault
  | fill v => fill (r.var v)
  | wholeLoad v n => wholeLoad (r.var v) n
  | dynamicUnroll v x => dynamicUnroll (r.var v) (x.relabel r)
  | fault => fault

/-- What a target cannot express. -/
def Construct.relabel : Construct → Construct
  | zigzag v => zigzag (r.var v)
  | zeroStep v => zeroStep (r.var v)
  | symbolicStep v e => symbolicStep (r.var v) (e.relabel r)
  | manyIndices n v => manyIndices n (r.var v)
  | floatDivision op => floatDivision op

/-- A scope closed out of order. -/
def StackFault.relabel : StackFault → StackFault
  | notOpen id s => notOpen id (s.relabel r)
  | unknown id => unknown id
  | root => root
  | innerOpen s i => innerOpen (s.relabel r) (i.relabel r)
  | leftOpen s => leftOpen (s.relabel r)

/-- An error over other variables. -/
def Error.relabel : Error → Error
  | configuration fault => configuration (fault.relabel r)
  | unsupportedOperation fault => unsupportedOperation (fault.relabel r)
  | unsupportedConstruct target c => unsupportedConstruct target (c.relabel r)
  | stackDiscipline fault => stackDiscipline (fault.relabel r)
  | shapeMismatch m n => shapeMismatch m n
  | outOfBounds d fault => outOfBounds d fault
  | unsupportedTarget name => unsupportedTarget name

/-- **An error keeps its kind.** -/
@[simp] theorem Error.kind_relabel (e : Error) : (e.relabel r).kind = e.kind := by
  cases e <;> rfl

/-! ## Loops that are written out -/

/-- The points of an unrolled loop. -/
def Copies.relabel (c : Copies) : Copies := ⟨r.var c.var, c.first.relabel r, c.extent, c.step⟩

theorem Copies.relabel_offset (c : Copies) (k : Int) :
    (c.relabel r).offset k = exchange (Error.relabel r) (Expr.relabel r) (c.offset k) := by
  obtain ⟨v, first, extent, step⟩ := c
  simp only [offset, Copies.relabel]
  cases Word.ofInt? (k * step.toInt) with
  | none => rfl
  | some delta =>
    cases first with
    | int b =>
      simp only [Expr.relabel_int]
      cases Word.add? b delta <;> rfl
    | float | str | var | binary | cast => rfl
    | load v is => simp only [Expr.relabel_load, exchange_ok, Expr.relabel_add, Expr.relabel_int]
    | call t f as => simp only [Expr.relabel_call, exchange_ok, Expr.relabel_add, Expr.relabel_int]

theorem Copies.relabel_expand (c : Copies) (b : Block) :
    (c.relabel r).expand (b.relabel r) =
      exchange (Error.relabel r) (Block.relabel r) (c.expand b) := by
  rw [expand, expand]
  refine exchange_bind (f := List.map (Block.relabel r)) ?_ fun bs => ?_
  · rw [← List.map_id (List.range (c.relabel r).extent.toInt.toNat)]
    refine exchange_mapM (fun k => ?_) _
    exact exchange_bind (relabel_offset r c k) fun e =>
      congrArg Except.ok (Block.relabel_subst r [(c.var, e)] b)
  · exact congrArg Except.ok (Block.relabel_ofList r bs)

theorem LoopIndex.relabel_copies (i : LoopIndex) :
    (i.relabel r).copies = exchange (Error.relabel r) (Copies.relabel r) i.copies := by
  have hliteral : (i.relabel r).range.literal? = i.range.literal? := by
    simp [relabel, Range.relabel, Range.mapExprs, Range.literal?]
  rw [copies, hliteral, copies]
  cases i.range.literal? with
  | none => rfl
  | some p =>
    obtain ⟨extent, step⟩ := p
    dsimp only
    split
    · rfl
    · split
      · exact exchange_bind (Copies.relabel_offset r ⟨i.var, i.range.first, extent, step⟩ _)
          fun _ => rfl
      · rfl

/-- **Writing out loops.** -/
theorem Block.relabel_unroll (is : List LoopIndex) (b : Block) :
    unroll (is.map (LoopIndex.relabel r)) (b.relabel r) =
      exchange (Error.relabel r) (Block.relabel r) (unroll is b) := by
  refine exchange_bind (exchange_mapM (LoopIndex.relabel_copies r) is) fun plan => ?_
  induction plan with
  | nil => rfl
  | cons c cs ih =>
    rw [List.map_cons, List.foldrM_cons, List.foldrM_cons]
    exact exchange_bind ih fun u => Copies.relabel_expand r c u

/-! ## Scopes -/

/-- A scope over other variables. -/
def ScopeForm.relabel : ScopeForm → ScopeForm
  | root => root
  | alloc v shape storage => alloc (r.var v) (shape.map (Expr.relabel r)) storage
  | loop k is => loop k (is.map (LoopIndex.relabel r))
  | bind bs => bind (bs.map (Binding.relabel r))
  | statement b => statement (b.relabel r)

theorem ScopeForm.relabel_wrap (f : ScopeForm) (bs : List Block) :
    (f.relabel r).wrap (bs.map (Block.relabel r)) =
      exchange (Error.relabel r) (Block.relabel r) (f.wrap bs) := by
  have hbody := Block.relabel_ofList r bs
  cases f with
  | root =>
    match bs with
    | [] | [_] => rfl
    | b :: c :: ds => simp [relabel, wrap, Error.relabel, ConfigurationFault.relabel]
  | alloc v shape storage => simp only [relabel, wrap, hbody]; rfl
  | bind ms => simp only [relabel, wrap, hbody]; rfl
  | statement b => rfl
  | loop k is =>
    cases k with
    | unroll => simp only [relabel, wrap, hbody, Block.relabel_unroll]
    | spatial | reduce | zigzag =>
      simp only [relabel, wrap, hbody, Block.relabel_nest, exchange_ok]

theorem ScopeForm.name_relabel (f : ScopeForm) : (f.relabel r).name = f.name.relabel r := by
  cases f with
  | root | alloc | statement => rfl
  | loop k is =>
    simp only [relabel, name, ScopeName.relabel, List.map_map]
    rfl
  | bind bs =>
    simp only [relabel, name, ScopeName.relabel, List.map_map]
    rfl

/-- A recorded scope over other variables. -/
def ScopeEntry.relabel (e : ScopeEntry) : ScopeEntry := { e with form := e.form.relabel r }

namespace ScopeTree

/-- A tree of scopes over other variables. -/
def relabel (t : ScopeTree) : ScopeTree :=
  { t with entries := t.entries.map (ScopeEntry.relabel r) }

variable (t : ScopeTree)

@[simp] theorem size_relabel : (t.relabel r).size = t.size := Array.size_map

theorem entries_relabel (id : Nat) :
    (t.relabel r).entries[id]? = (t.entries[id]?).map (ScopeEntry.relabel r) :=
  Array.getElem?_map

@[simp] theorem isImplicit_relabel (id : Nat) : (t.relabel r).isImplicit id = t.isImplicit id := by
  rw [isImplicit, entries_relabel, Option.map_map]
  rfl

theorem describe_relabel (id : Nat) : (t.relabel r).describe id = (t.describe id).relabel r := by
  rw [describe, entries_relabel, describe]
  cases t.entries[id]? with
  | none => rfl
  | some e => exact ScopeForm.name_relabel r e.form

theorem relabel_addChild (form : ScopeForm) (implicit : Bool) :
    (t.relabel r).addChild (form.relabel r) implicit = (t.addChild form implicit).relabel r := by
  simp only [addChild, relabel, Array.map_push, size, Array.size_map, innermost]
  congr 2
  apply Array.ext
  · simp
  · intro i _ _
    simp only [Array.getElem_modify, Array.getElem_map]
    split <;> rfl

theorem relabel_enter (form : ScopeForm) (implicit : Bool) :
    (t.relabel r).enter (form.relabel r) implicit = (t.enter form implicit).relabel r := by
  rw [enter, relabel_addChild, size_relabel]
  rfl

/-- **The end of a scope.** -/
theorem relabel_close (id : Nat) :
    (t.relabel r).close id = exchange (Error.relabel r) (relabel r) (t.close id) := by
  have hdescribe := describe_relabel r t
  simp only [close, size_relabel, isImplicit_relabel, hdescribe]
  change (if id ∉ t.opened then _ else _) = _
  split
  · split <;> rfl
  · change (if ((t.opened.dropWhile _).drop 1).isEmpty = true then _ else _) = _
    split
    · rfl
    · have hopened : (t.relabel r).opened = t.opened := rfl
      rw [hopened]
      cases (t.opened.takeWhile (· ≠ id)).reverse.find? fun s => !t.isImplicit s <;> rfl

theorem relabel_checkClosed :
    (t.relabel r).checkClosed = exchange (Error.relabel r) id t.checkClosed := by
  have hleft : (t.relabel r).leftOpen? = t.leftOpen? := by
    simp only [leftOpen?, isImplicit_relabel]
    rfl
  rw [checkClosed, hleft, checkClosed]
  split
  · rw [describe_relabel]
    rfl
  · rfl

/-- **Lowering.** -/
theorem relabel_lower :
    (t.relabel r).lower = exchange (Error.relabel r) (Block.relabel r) t.lower := by
  have hscope : ∀ n i, ((t.relabel r).scopeTo n i).lower =
      exchange (Error.relabel r) (Block.relabel r) (t.scopeTo n i).lower := by
    intro n
    induction n with
    | zero =>
      intro i
      rw [scopeTo, entries_relabel, scopeTo, Scope.lower, Scope.lower]
      cases t.entries[i]? with
      | none => rfl
      | some e => exact ScopeForm.relabel_wrap r e.form []
    | succ n ih =>
      intro i
      rw [scopeTo, entries_relabel, scopeTo]
      cases t.entries[i]? with
      | none => rfl
      | some e =>
        simp only [Option.map_some, Scope.lower, Scope.lowerAll_eq_mapM, List.mapM_map]
        refine exchange_bind ?_ fun bs => ScopeForm.relabel_wrap r e.form bs
        have hchildren := exchange_mapM (f := id) (l := fun i => ((t.relabel r).scopeTo n i).lower)
          ih e.children
        rwa [List.map_id] at hchildren
  rw [ScopeTree.lower, scope, size_relabel, hscope]
  rfl

end ScopeTree

/-! ## Views -/

/-- A cut over other variables. -/
def Cut.relabel : Cut → Cut
  | fixed e => fixed (e.relabel r)
  | strided start step extent => strided (start.relabel r) (step.relabel r) (extent.relabel r)

/-- A selector over other variables. -/
def Selector.relabel : Selector → Selector
  | .at e => .at (e.relabel r)
  | span start stop step =>
    span (start.map (Expr.relabel r)) (stop.map (Expr.relabel r)) (step.map (Expr.relabel r))

theorem Cut.extent?_relabel (c : Cut) :
    (c.relabel r).extent? = c.extent?.map (Expr.relabel r) := by
  cases c <;> rfl

theorem Cut.offset?_relabel (c : Cut) :
    (c.relabel r).offset? = c.offset?.map (Expr.relabel r) := by
  cases c <;> rfl

theorem Cut.isStrided_relabel (c : Cut) : (c.relabel r).isStrided = c.isStrided := by
  cases c <;> rfl

theorem Cut.relabel_place (cs : List Cut) (free : List Expr) :
    place (cs.map (relabel r)) (free.map (Expr.relabel r)) =
      (place cs free).map (List.map (Expr.relabel r)) := by
  induction cs generalizing free with
  | nil => rfl
  | cons c cs ih =>
    cases c with
    | fixed e =>
      simp only [List.map_cons, relabel, place, ih, Option.map_map]
      rfl
    | strided start step extent =>
      cases free with
      | nil => rfl
      | cons i free =>
        simp only [List.map_cons, relabel, place, ih, Option.map_map, ← Expr.relabel_mul,
          ← Expr.relabel_add, Expr.relabel_fold]
        rfl

namespace View

/-- A view over other variables. -/
def relabel : View → View
  | .root v shape storage => .root (r.var v) (shape.map (Expr.relabel r)) storage
  | sliced p cs => sliced p.relabel (cs.map (Cut.relabel r))

theorem buffer_relabel (v : View) : (v.relabel r).buffer = r.var v.buffer := by
  induction v with
  | root => rfl
  | sliced p cs ih => exact ih

theorem shape_relabel (v : View) : (v.relabel r).shape = v.shape.map (Expr.relabel r) := by
  cases v with
  | root => rfl
  | sliced p cs =>
    rw [relabel, shape, shape, List.filterMap_map, List.map_filterMap]
    exact List.filterMap_congr fun c _ => Cut.extent?_relabel r c

theorem rank_relabel (v : View) : (v.relabel r).rank = v.rank := by
  rw [rank, shape_relabel, List.length_map, rank]

theorem base_relabel (v : View) : (v.relabel r).base = v.base.relabel r := by
  induction v with
  | root => rfl
  | sliced p cs ih => exact ih

theorem relabel_locate (v : View) (is : List Expr) :
    (v.relabel r).locate (is.map (Expr.relabel r)) =
      exchange (Error.relabel r) (List.map (Expr.relabel r)) (v.locate is) := by
  induction v generalizing is with
  | root v shape storage =>
    have hrank := rank_relabel r (.root v shape storage)
    rw [locate.eq_def, locate.eq_def, List.length_map, hrank]
    split
    · rfl
    · exact congrArg Except.ok (by simp [Expr.relabel_fold])
  | sliced p cs ih =>
    have hrank := rank_relabel r (sliced p cs)
    rw [locate.eq_def, locate.eq_def, List.length_map, hrank]
    split
    · rfl
    · simp only [relabel, Cut.relabel_place] at hrank ⊢
      cases Cut.place cs is with
      | none => simp only [Option.map_none, hrank]; rfl
      | some origin => exact ih origin

end View

namespace Selector

theorem relabel_spanExtent (dim : Nat) (start stop step : Expr) :
    spanExtent dim (start.relabel r) (stop.relabel r) (step.relabel r) =
      exchange (Error.relabel r) (Expr.relabel r) (spanExtent dim start stop step) := by
  simp only [spanExtent, Expr.literal?_relabel]
  split
  · split
    · rfl
    · split <;> rfl
  · rw [← Expr.relabel_sub, Expr.relabel_fold]
    rfl
  · have h : ((Expr.binary .floorDiv (stop - start + (step - .int 1)) step).relabel r).fold = _ :=
      Expr.relabel_fold r _
    exact congrArg Except.ok h

theorem relabel_cut (dim : Nat) (extent : Expr) (s : Selector) :
    (s.relabel r).cut dim (extent.relabel r) =
      exchange (Error.relabel r) (Cut.relabel r) (s.cut dim extent) := by
  cases s with
  | «at» e =>
    refine exchange_bind (f := id) ?_ fun _ => rfl
    simp only [checkPosition, Expr.literal?_relabel]
    split
    · split <;> rfl
    · rfl
  | span start? stop? step? =>
    have hgetD : ∀ (x? : Option Expr) (e : Expr),
        (x?.map (Expr.relabel r)).getD (e.relabel r) = (x?.getD e).relabel r := by
      intro x? e
      cases x? <;> rfl
    have hstart := hgetD start? (.int 0)
    have hstop := hgetD stop? extent
    have hstep := hgetD step? (.int 1)
    rw [Expr.relabel_int] at hstart hstep
    simp only [relabel, cut, hstart, hstop, hstep]
    refine exchange_bind (f := id) ?_ fun _ => exchange_bind (f := id) ?_ fun _ =>
      exchange_bind (relabel_spanExtent r dim _ _ _) fun _ => rfl
    · simp only [checkStep, Expr.literal?_relabel]
      split
      · split <;> rfl
      · rfl
    · simp only [checkSpan, Expr.literal?_relabel]
      split
      · split <;> rfl
      · rfl

theorem relabel_cutAll (dim : Nat) (ss : List Selector) (es : List Expr) :
    cutAll dim (ss.map (relabel r)) (es.map (Expr.relabel r)) =
      exchange (Error.relabel r) (List.map (Cut.relabel r)) (cutAll dim ss es) := by
  induction ss generalizing dim es with
  | nil => rfl
  | cons s ss ih =>
    cases es with
    | nil => rfl
    | cons e es =>
      exact exchange_bind (relabel_cut r dim e s) fun c => exchange_bind (ih (dim + 1) es)
        fun cs => rfl

end Selector

/-- What is selected. -/
def Selection.relabel : Selection → Selection
  | view v => view (v.relabel r)
  | element b is => element (r.var b) (is.map (Expr.relabel r))

/-- **Selecting through a view.** -/
theorem View.relabel_select (v : View) (ss : List Selector) :
    (v.relabel r).select (ss.map (Selector.relabel r)) =
      exchange (Error.relabel r) (Selection.relabel r) (v.select ss) := by
  rw [select, select, List.length_map, rank_relabel, shape_relabel]
  split
  · rfl
  · refine exchange_bind (Selector.relabel_cutAll r 0 ss v.shape) fun cs => ?_
    have hany : (cs.map (Cut.relabel r)).any Cut.isStrided = cs.any Cut.isStrided := by
      rw [List.any_map]
      exact congrArg cs.any (funext (Cut.isStrided_relabel r))
    have hoffsets : (cs.map (Cut.relabel r)).filterMap Cut.offset? =
        (cs.filterMap Cut.offset?).map (Expr.relabel r) := by
      rw [List.filterMap_map, List.map_filterMap]
      exact List.filterMap_congr fun c _ => Cut.offset?_relabel r c
    rw [hany, hoffsets, buffer_relabel]
    split
    · rfl
    · exact exchange_bind (relabel_locate r v _) fun _ => rfl

/-! ## Traces and kernels -/

/-- A loop scope over other variables. -/
def LoopDecl.relabel (d : LoopDecl) : LoopDecl :=
  { d with ranges := d.ranges.map (List.map (Range.relabel r)) }

theorem LoopDecl.relabel_check (d : LoopDecl) :
    (d.relabel r).check = exchange (Error.relabel r)
      (List.map fun p => (p.1, p.2.1.relabel r, p.2.2)) d.check := by
  obtain ⟨names?, ranges?, tags?⟩ := d
  cases names? with
  | none => rfl
  | some names =>
    cases ranges? with
    | none => rfl
    | some ranges =>
      simp only [check, relabel, Option.map_some, List.length_map]
      split
      · rfl
      · split
        · rfl
        · cases tags? with
          | none =>
            simp only [exchange_ok, List.map_map, List.zip_map_right]
            rfl
          | some tags =>
            dsimp only
            split
            · rw [exchange_ok, List.zip_map_left, List.zip_map_right]
              rfl
            · rfl

/-- A trace over other variables. The count of its variables is the same. -/
def Trace.relabel (t : Trace) : Trace :=
  { t with tree := t.tree.relabel r, bound := t.bound.map (View.relabel r) }

/-- A parameter over other variables. -/
def Buffer.relabel (b : Buffer) : Buffer := ⟨r.var b.var, b.shape.map (Expr.relabel r)⟩

/-- The parameters of a kernel over other variables. -/
def Signature.relabel (g : Signature) : Signature :=
  ⟨g.name, g.buffers.map (Buffer.relabel r), g.scalars.map r.var⟩

/-- A kernel over other variables. -/
def Kernel.relabel (k : Kernel) : Kernel := ⟨k.signature.relabel r, k.body.relabel r, k.source⟩

/-- The views of the parameters. -/
def Signature.views (g : Signature) : List View := g.buffers.map Buffer.view

theorem Signature.views_relabel (g : Signature) :
    (g.relabel r).views = g.views.map (View.relabel r) := by
  simp only [views, relabel, List.map_map]
  rfl

theorem Options.relabel_apply (o : Options) (views : List View) (b : Block) :
    o.apply (views.map (View.relabel r)) (b.relabel r) = (o.apply views b).relabel r := by
  have hshapes : View.shapes (views.map (View.relabel r)) = (View.shapes views).relabel r := by
    have hbase : ∀ v : View, ((v.relabel r).base.buffer, (v.relabel r).base.shape) =
        (r.var v.base.buffer, v.base.shape.map (Expr.relabel r)) := fun v => by
      rw [View.base_relabel, View.buffer_relabel, View.shape_relabel]
    simp only [View.shapes, Shapes.relabel, List.map_map, List.map_reverse, Function.comp_def,
      hbase]
  have hflatten : (if o.flatten then (b.relabel r).flattenViews (views.map (View.relabel r))
      else b.relabel r) = (if o.flatten then b.flattenViews views else b).relabel r := by
    split
    · rw [Block.flattenViews, hshapes, Block.relabel_flatten, Block.flattenViews]
    · rfl
  simp only [apply, hflatten]
  split
  · rw [Block.relabel_fold]
  · rfl

/-- A finished trace as a kernel with given parameters: lowered, and the passes run. -/
def Trace.kernel (t : Trace) (g : Signature) (o : Options) : Except Error Kernel := do
  let body ← t.toBlock
  return ⟨g, o.apply g.views body, none⟩

/-- **A trace over other variables becomes the kernel over other variables**, or fails with the same
error, which names the other variables. -/
theorem Trace.relabel_kernel (t : Trace) (g : Signature) (o : Options) :
    (t.relabel r).kernel (g.relabel r) o =
      exchange (Error.relabel r) (Kernel.relabel r) (t.kernel g o) := by
  refine exchange_bind (f := Block.relabel r) ?_ fun body => ?_
  · exact exchange_bind (ScopeTree.relabel_checkClosed r t.tree) fun _ =>
      ScopeTree.relabel_lower r t.tree
  · rw [Signature.views_relabel, Options.relabel_apply]
    rfl

end

end LoopNest
