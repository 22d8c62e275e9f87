import LoopNest.C.Printer
import LoopNest.Proofs.Mentions
import LoopNest.Scope.Lower

/-!
# Other numbers for the variables

A relabelling gives every variable another number, and no two the same one; names and types stay.
Floating-point literals may be exchanged for others that are written alike, as one NaN for another.
The passes compare variables and inspect types and whole numbers, so they do the same to what was
relabelled.

* `Relabelling`, `Relabelling.ofIds`;
* `Expr.relabel`, `Block.relabel`, `Shapes.relabel`: everything in a body;
* **`Expr.relabel_fold`**, **`Expr.relabel_subst`**, **`Expr.relabel_flatten`**: expressions;
* **`Layout.relabel_offset`**, **`Layout.relabel_count`**: layouts;
* **`Block.relabel_fold`**, **`Block.relabel_flatten`**: blocks.
-/

namespace LoopNest

/-! ## Relabellings -/

/-- Other variables of the same names and types, and other floating-point literals that are written
alike. -/
structure Relabelling where
  var : Var → Var
  float : Binary64 → Binary64
  /-- Different variables stay different. -/
  injective : Function.Injective var
  name_var (v : Var) : (var v).name = v.name
  type_var (v : Var) : (var v).type = v.type
  text_float (x : Binary64) : (float x).text = x.text
  textC_float (x : Binary64) : (float x).textC = x.textC

/-- Other numbers for the variables, and nothing else. -/
def Relabelling.ofIds (f : Nat → Nat) (hf : Function.Injective f) : Relabelling where
  var v := { v with id := f v.id }
  float x := x
  injective v w h := by
    obtain ⟨hid, hname, htype⟩ := Var.mk.inj h
    cases v
    cases w
    exact congr (congr (congrArg Var.mk (hf hid)) hname) htype
  name_var _ := rfl
  type_var _ := rfl
  text_float _ := rfl
  textC_float _ := rfl

/-- What a table with keys holds for a key, it holds for the changed key after a change of all keys
that keeps them apart. -/
theorem find?_map_keys {α β γ : Type} [DecidableEq α] {f : α → α} (hf : Function.Injective f)
    (g : β → γ) (l : List (α × β)) (a : α) :
    ((l.map fun p => (f p.1, g p.2)).find? fun p => p.1 = f a).map Prod.snd =
      ((l.find? fun p => p.1 = a).map Prod.snd).map g := by
  induction l with
  | nil => rfl
  | cons p l ih =>
    by_cases h : p.1 = a
    · simp [h]
    · have hne : f p.1 ≠ f a := fun he => h (hf he)
      simpa [h, hne] using ih

/-! ## Expressions -/

section

variable (r : Relabelling)

namespace Expr

/-- A variable, a buffer or a floating-point literal is exchanged; any other node stays. -/
def relabelRule : Expr → Expr
  | float x => float (r.float x)
  | var v => var (r.var v)
  | load v is => load (r.var v) is
  | e => e

/-- An expression over other variables. -/
def relabel : Expr → Expr := bottomUp (relabelRule r)

@[simp] theorem relabel_int (n : Word) : (int n).relabel r = int n := rfl

@[simp] theorem relabel_float (x : Binary64) : (float x).relabel r = float (r.float x) := rfl

@[simp] theorem relabel_str (s : String) : (str s).relabel r = str s := rfl

@[simp] theorem relabel_var (v : Var) : (var v).relabel r = var (r.var v) := rfl

@[simp] theorem relabel_binary (op : Operator) (a b : Expr) :
    (binary op a b).relabel r = binary op (a.relabel r) (b.relabel r) := rfl

@[simp] theorem relabel_cast (t : ElemType) (a : Expr) :
    (cast t a).relabel r = cast t (a.relabel r) := rfl

@[simp] theorem relabel_load (v : Var) (is : List Expr) :
    (load v is).relabel r = load (r.var v) (is.map (relabel r)) := by
  rw [relabel, bottomUp, bottomUpAll_eq_map]
  rfl

@[simp] theorem relabel_call (t : ElemType) (f : String) (as : List Expr) :
    (call t f as).relabel r = call t f (as.map (relabel r)) := by
  rw [relabel, bottomUp, bottomUpAll_eq_map]
  rfl

@[simp] theorem relabel_add (a b : Expr) : (a + b).relabel r = a.relabel r + b.relabel r := rfl

@[simp] theorem relabel_sub (a b : Expr) : (a - b).relabel r = a.relabel r - b.relabel r := rfl

@[simp] theorem relabel_mul (a b : Expr) : (a * b).relabel r = a.relabel r * b.relabel r := rfl

@[simp] theorem literal?_relabel (e : Expr) : (e.relabel r).literal? = e.literal? := by
  cases e with
  | int | float | str | var | binary | cast => rfl
  | load | call => simp [literal?]

@[simp] theorem type_relabel (e : Expr) : (e.relabel r).type = e.type := by
  induction e using inductionOn with
  | int | float | str | cast => rfl
  | var v => exact r.type_var v
  | binary op a b iha => rw [relabel_binary, type, type, iha]
  | load v is => rw [relabel_load]; exact r.type_var v
  | call t f as => rw [relabel_call]; rfl

theorem anyEffect_map {f : Expr → Expr} {es : List Expr}
    (h : ∀ e ∈ es, (f e).hasEffect = e.hasEffect) : anyEffect (es.map f) = anyEffect es := by
  induction es with
  | nil => rfl
  | cons e es ih =>
    obtain ⟨he, hes⟩ := List.forall_mem_cons.1 h
    rw [List.map_cons, anyEffect, anyEffect, he, ih hes]

@[simp] theorem hasEffect_relabel (e : Expr) : (e.relabel r).hasEffect = e.hasEffect := by
  induction e using inductionOn with
  | int | float | str | var => rfl
  | binary op a b iha ihb => rw [relabel_binary, hasEffect, hasEffect, iha, ihb]
  | cast t a iha => exact iha
  | load v is ih =>
    rw [relabel_load, hasEffect, hasEffect, anyEffect_map ih]
  | call t f as => rw [relabel_call, hasEffect, hasEffect]

theorem relabel_foldOperation (op : Operator) (a b : Expr) :
    foldOperation op (a.relabel r) (b.relabel r) = (foldOperation op a b).relabel r := by
  have hidentity : foldIdentity op (a.relabel r) (b.relabel r) =
      (foldIdentity op a b).relabel r := by
    simp only [foldIdentity, type_relabel, literal?_relabel, hasEffect_relabel]
    split
    · split <;> (try split) <;> rfl
    · rfl
  simp only [foldOperation, literal?_relabel]
  split
  · split <;> rfl
  · exact hidentity

/-- **Folding does not see the numbers of variables.** -/
theorem relabel_fold (e : Expr) : (e.relabel r).fold = e.fold.relabel r := by
  induction e using inductionOn with
  | int | float | str | var => rfl
  | binary op a b iha ihb =>
    rw [relabel_binary, fold_binary, fold_binary, iha, ihb, relabel_foldOperation]
  | cast t a iha => rw [relabel_cast, fold_cast, fold_cast, relabel_cast, iha]
  | load v is ih => simpa using ih
  | call t f as ih => simpa using ih

/-- **A replacement with everything in it may be relabelled before or after it is put in.** -/
theorem relabel_subst (σ : Substitution) (e : Expr) :
    (e.relabel r).subst (σ.map fun p => (r.var p.1, p.2.relabel r)) = (e.subst σ).relabel r := by
  induction e using inductionOn with
  | int | float | str => rfl
  | var v =>
    have hfind : Substitution.find? (σ.map fun p => (r.var p.1, p.2.relabel r)) (r.var v) =
        (σ.find? v).map (relabel r) := by
      rw [Substitution.find?, ← List.map_reverse, find?_map_keys r.injective, Substitution.find?]
    change ((Substitution.find? _ (r.var v)).getD (var (r.var v))) = _
    rw [hfind]
    change _ = ((σ.find? v).getD (var v)).relabel r
    cases σ.find? v <;> rfl
  | binary op a b iha ihb =>
    rw [relabel_binary, subst_binary, subst_binary, iha, ihb, relabel_binary]
  | cast t a iha => rw [relabel_cast, subst_cast, subst_cast, iha, relabel_cast]
  | load v is ih => simpa using ih
  | call t f as ih => simpa using ih

theorem varsAll_map {f : Expr → Expr} {es : List Expr}
    (h : ∀ e ∈ es, (f e).vars = e.vars.map r.var) :
    varsAll (es.map f) = (varsAll es).map r.var := by
  induction es with
  | nil => rfl
  | cons e es ih =>
    obtain ⟨he, hes⟩ := List.forall_mem_cons.1 h
    rw [List.map_cons, varsAll, varsAll, he, ih hes, List.map_append]

theorem vars_relabel (e : Expr) : (e.relabel r).vars = e.vars.map r.var := by
  induction e using inductionOn with
  | int | float | str | var => rfl
  | binary op a b iha ihb => rw [relabel_binary, vars, vars, iha, ihb, List.map_append]
  | cast t a iha => exact iha
  | load v is ih =>
    rw [relabel_load, vars, vars, varsAll_map r ih, List.map_cons]
  | call t f as ih => rw [relabel_call, vars, vars, varsAll_map r ih]

end Expr

/-! ## Layouts and tables of shapes -/

namespace Layout

theorem relabel_strides (shape : List Expr) :
    strides (shape.map (Expr.relabel r)) = (strides shape).map (Expr.relabel r) := by
  induction shape with
  | nil => rfl
  | cons c ds ih =>
    cases ds with
    | nil => rfl
    | cons d ds =>
      rw [List.map_cons, List.map_cons, strides, ← List.map_cons, ih, strides]
      cases strides (d :: ds) with
      | nil => rfl
      | cons s ss =>
        simp only [List.map_cons]
        rw [← Expr.relabel_mul, Expr.relabel_fold]

theorem relabel_foldl {f : Expr → Expr → Expr}
    (hf : ∀ a b, (f a b).relabel r = f (a.relabel r) (b.relabel r)) (e : Expr) (es : List Expr) :
    (es.map (Expr.relabel r)).foldl f (e.relabel r) = (es.foldl f e).relabel r := by
  induction es generalizing e with
  | nil => rfl
  | cons x es ih => rw [List.map_cons, List.foldl_cons, ← hf, ih, List.foldl_cons]

/-- **The offset of an element.** -/
theorem relabel_offset (is shape : List Expr) :
    offset (is.map (Expr.relabel r)) (shape.map (Expr.relabel r)) =
      (offset is shape).relabel r := by
  have hterms : terms (is.map (Expr.relabel r)) (shape.map (Expr.relabel r)) =
      (terms is shape).map (Expr.relabel r) := by
    rw [terms, terms, relabel_strides, List.zipWith_map, List.map_zipWith]
    rfl
  rw [offset, hterms, offset]
  cases terms is shape with
  | nil => rfl
  | cons t ts =>
    simp only [List.map_cons]
    rw [relabel_foldl r (Expr.relabel_add r), Expr.relabel_fold]

/-- **The number of elements.** -/
theorem relabel_count (shape : List Expr) :
    count (shape.map (Expr.relabel r)) = (count shape).relabel r := by
  cases shape with
  | nil => rfl
  | cons d ds =>
    rw [List.map_cons, count, count, relabel_foldl r (Expr.relabel_mul r), Expr.relabel_fold]

end Layout

/-- A table of shapes over other variables. -/
def Shapes.relabel (T : Shapes) : Shapes :=
  T.map fun p => (r.var p.1, p.2.map (Expr.relabel r))

theorem Shapes.find?_relabel (T : Shapes) (v : Var) :
    (T.relabel r).find? (r.var v) = (T.find? v).map (List.map (Expr.relabel r)) :=
  find?_map_keys r.injective _ T v

theorem Shapes.relabel_flatIndices (T : Shapes) (v : Var) (is : List Expr) :
    (T.relabel r).flatIndices (r.var v) (is.map (Expr.relabel r)) =
      (T.flatIndices v is).map (Expr.relabel r) := by
  rw [flatIndices, flatIndices, List.length_map, find?_relabel]
  split
  · rfl
  · cases T.find? v with
    | none => rfl
    | some shape =>
      simp only [Option.map_some, List.length_map]
      split
      · rw [Layout.relabel_offset]
        rfl
      · rfl

/-- **An access is flattened as before.** -/
theorem Expr.relabel_flatten (T : Shapes) (e : Expr) :
    (e.relabel r).flatten (T.relabel r) = (e.flatten T).relabel r := by
  induction e using inductionOn with
  | int | float | str | var => rfl
  | binary op a b iha ihb =>
    rw [relabel_binary, flatten_binary, flatten_binary, iha, ihb, relabel_binary]
  | cast t a iha => rw [relabel_cast, flatten_cast, flatten_cast, iha, relabel_cast]
  | load v is ih =>
    have his : (is.map (relabel r)).map (flatten (T.relabel r)) =
        (is.map (flatten T)).map (relabel r) := by simpa using ih
    rw [relabel_load, flatten_load, flatten_load, his, Shapes.relabel_flatIndices, relabel_load]
  | call t f as ih => simpa using ih

/-! ## Blocks -/

/-- A range over other variables. -/
def Range.relabel (x : Range) : Range := x.mapExprs (Expr.relabel r)

/-- A variable over a range. -/
def LoopIndex.relabel (i : LoopIndex) : LoopIndex := ⟨r.var i.var, i.range.relabel r, i.tag⟩

/-- A variable that stands for a value. -/
def Binding.relabel (b : Binding) : Binding := ⟨r.var b.var, b.value.relabel r⟩

namespace Block

/-- A block over other variables. -/
def relabel : Block → Block
  | seq a b => seq a.relabel b.relabel
  | loop k i body => loop k (i.relabel r) body.relabel
  | alloc v shape storage body => alloc (r.var v) (shape.map (Expr.relabel r)) storage body.relabel
  | bind bs body => bind (bs.map (Binding.relabel r)) body.relabel
  | eval e => eval (e.relabel r)
  | store v is e => store (r.var v) (is.map (Expr.relabel r)) (e.relabel r)

/-- A pass over expressions that can be exchanged with the relabelling of expressions can be
exchanged with that of blocks. -/
theorem relabel_mapExprs {f g : Expr → Expr} (h : ∀ e : Expr, f (e.relabel r) = (g e).relabel r)
    (b : Block) : (b.relabel r).mapExprs f = (b.mapExprs g).relabel r := by
  have hlist : ∀ es : List Expr, (es.map (Expr.relabel r)).map f =
      (es.map g).map (Expr.relabel r) := fun es => by simp [h]
  induction b with
  | seq a b iha ihb => rw [relabel, mapExprs, iha, ihb, mapExprs, relabel]
  | loop k i body ih =>
    simp only [relabel, mapExprs, ih, LoopIndex.relabel, Range.relabel, Range.mapExprs, h]
  | alloc v shape storage body ih => simp only [relabel, mapExprs, ih, hlist]
  | bind bs body ih =>
    simp only [relabel, mapExprs, ih, List.map_map, Function.comp_def, Binding.relabel, h]
  | eval e => simp only [relabel, mapExprs, h]
  | store v is e => simp only [relabel, mapExprs, h, hlist]

theorem relabel_subst (σ : Substitution) (b : Block) :
    (b.relabel r).subst (σ.map fun p => (r.var p.1, p.2.relabel r)) = (b.subst σ).relabel r :=
  relabel_mapExprs r (Expr.relabel_subst r σ) b

/-- **Folding.** -/
theorem relabel_fold (b : Block) : (b.relabel r).fold = b.fold.relabel r :=
  relabel_mapExprs r (Expr.relabel_fold r) b

theorem relabel_ofList (bs : List Block) :
    ofList (bs.map (relabel r)) = (ofList bs).relabel r := by
  induction bs with
  | nil => rfl
  | cons b bs ih =>
    cases bs with
    | nil => rfl
    | cons c cs => rw [List.map_cons, List.map_cons, ofList_cons_cons, ← List.map_cons, ih]; rfl

theorem relabel_nest (k : LoopKind) (is : List LoopIndex) (body : Block) :
    nest k (is.map (LoopIndex.relabel r)) (body.relabel r) = (nest k is body).relabel r := by
  induction is with
  | nil => rfl
  | cons i is ih => exact congrArg _ ih

theorem addShape_relabel (v : Var) (shape : List Expr) (T : Shapes) :
    addShape (r.var v) (shape.map (Expr.relabel r)) (T.relabel r) =
      (addShape v shape T).relabel r := by
  rw [addShape, addShape, List.length_map]
  split <;> rfl

theorem declare_relabel (T : Shapes) (b : Block) :
    (b.relabel r).declare (T.relabel r) = (b.declare T).relabel r := by
  induction b generalizing T with
  | seq a b iha ihb => rw [relabel, declare, iha, ihb, declare]
  | loop k i body ih | bind bs body ih => exact ih T
  | alloc v shape storage body ih => rw [relabel, declare, addShape_relabel, ih, declare]
  | eval | store => rfl

/-- **Flattening.** -/
theorem relabel_flatten (T : Shapes) (b : Block) :
    (b.relabel r).flatten (T.relabel r) = (b.flatten T).relabel r := by
  have hlist : ∀ (T : Shapes) (es : List Expr), (es.map (Expr.relabel r)).map
      (Expr.flatten (T.relabel r)) = (es.map (Expr.flatten T)).map (Expr.relabel r) :=
    fun T es => by simp [Expr.relabel_flatten]
  induction b generalizing T with
  | seq a b iha ihb => rw [relabel, flatten, declare_relabel, iha, ihb, flatten, relabel]
  | loop k i body ih =>
    simp only [relabel, flatten, ih, LoopIndex.relabel, Range.relabel, Range.mapExprs,
      Expr.relabel_flatten]
  | alloc v shape storage body ih =>
    simp only [relabel, flatten, addShape_relabel, ih, List.length_map, hlist]
    split
    · rw [Layout.relabel_count]
      rfl
    · rfl
  | bind bs body ih =>
    simp only [relabel, flatten, ih, List.map_map, Function.comp_def, Binding.relabel,
      Expr.relabel_flatten]
  | eval e => simp only [relabel, flatten, Expr.relabel_flatten]
  | store v is e =>
    simp only [relabel, flatten, Expr.relabel_flatten, hlist, Shapes.relabel_flatIndices]

end Block

end

end LoopNest
