import LoopNest.Proofs.Flattening
import LoopNest.Proofs.Unrolling

/-!
# What an expression mentions

An expression mentions variables in expression position, and buffers that it loads with some number
of indices. A property of all that is mentioned is kept by every pass, if what a pass puts in has
it: the replacement of a variable, and the shapes of flattened accesses.

* `Expr.Each`: a property of all variables, and one of all loads;
* **`Expr.Each.fold`**, **`Expr.Each.subst`**, **`Expr.Each.flatten`**: the passes;
* **`Layout.each_offset`**, **`Layout.each_count`**: layouts;
* **`Expr.each_vars`**: all variables and buffers together.
-/

namespace LoopNest

namespace Expr

mutual

/-- Every variable in expression position has the property `V`, and every load, as buffer and number
of indices, has the property `L`. -/
def Each (V : Var → Prop) (L : Var → Nat → Prop) : Expr → Prop
  | int _ | float _ | str _ => True
  | var v => V v
  | binary _ a b => a.Each V L ∧ b.Each V L
  | cast _ a => a.Each V L
  | load v is => L v is.length ∧ EachAll V L is
  | call _ _ as => EachAll V L as

/-- The same for all expressions of a list. -/
def EachAll (V : Var → Prop) (L : Var → Nat → Prop) : List Expr → Prop
  | [] => True
  | e :: es => e.Each V L ∧ EachAll V L es

end

section

variable {V W : Var → Prop} {L M : Var → Nat → Prop} {op : Operator} {a b e : Expr}
  {es : List Expr}

mutual

/-- What an expression mentions can be checked. -/
def decidableEach [DecidablePred V] [∀ v n, Decidable (L v n)] : ∀ e : Expr, Decidable (e.Each V L)
  | int _ | float _ | str _ => isTrue trivial
  | var v => inferInstanceAs (Decidable (V v))
  | binary _ a b =>
    have := decidableEach a
    have := decidableEach b
    inferInstanceAs (Decidable (a.Each V L ∧ b.Each V L))
  | cast _ a => decidableEach a
  | load v is =>
    have := decidableEachAll is
    inferInstanceAs (Decidable (L v is.length ∧ EachAll V L is))
  | call _ _ as => decidableEachAll as

/-- The same for lists. -/
def decidableEachAll [DecidablePred V] [∀ v n, Decidable (L v n)] :
    ∀ es : List Expr, Decidable (EachAll V L es)
  | [] => isTrue trivial
  | e :: es =>
    have := decidableEach e
    have := decidableEachAll es
    inferInstanceAs (Decidable (e.Each V L ∧ EachAll V L es))

end

instance [DecidablePred V] [∀ v n, Decidable (L v n)] (e : Expr) : Decidable (e.Each V L) :=
  decidableEach e

theorem eachAll_iff : EachAll V L es ↔ ∀ e ∈ es, e.Each V L := by
  induction es with
  | nil => simp [EachAll]
  | cons e es ih => rw [EachAll, ih, List.forall_mem_cons]

@[simp] theorem each_int (n : Word) : (int n).Each V L := trivial

theorem each_load_iff {v : Var} :
    (load v es).Each V L ↔ L v es.length ∧ ∀ e ∈ es, e.Each V L := by
  rw [Each, eachAll_iff]

theorem each_call_iff {t : ElemType} {f : String} :
    (call t f es).Each V L ↔ ∀ e ∈ es, e.Each V L := eachAll_iff

theorem Each.add (ha : a.Each V L) (hb : b.Each V L) : (a + b).Each V L := ⟨ha, hb⟩

theorem Each.mul (ha : a.Each V L) (hb : b.Each V L) : (a * b).Each V L := ⟨ha, hb⟩

/-! ## Passes -/

theorem Folded.each (h : Folded op a b e) (ha : a.Each V L) (hb : b.Each V L) : e.Each V L := by
  cases h with
  | node => exact ⟨ha, hb⟩
  | literal => exact each_int _
  | identity _ _ hid =>
    rcases hid.mem with rfl | rfl | rfl
    · exact ha
    · exact hb
    · exact each_int _

/-- **Folding mentions nothing new.** -/
theorem Each.fold (h : e.Each V L) : e.fold.Each V L := by
  induction e using inductionOn with
  | int _ | float _ | str _ | var _ => exact h
  | binary op a b iha ihb => exact (folded_foldOperation op a.fold b.fold).each (iha h.1) (ihb h.2)
  | cast t a iha => exact iha h
  | load v is ih =>
    obtain ⟨hv, his⟩ := each_load_iff.1 h
    rw [fold_load, each_load_iff, List.length_map, List.forall_mem_map]
    exact ⟨hv, fun i hi => ih i hi (his i hi)⟩
  | call t f as ih =>
    rw [each_call_iff] at h
    rw [fold_call, each_call_iff, List.forall_mem_map]
    exact fun a ha => ih a ha (h a ha)

/-- **What is put in for a variable is mentioned instead of it.** -/
theorem Each.subst {x : Var} {r : Expr} (h : e.Each V L) (hV : ∀ v, V v → v = x ∨ W v)
    (hL : ∀ v n, L v n → M v n) (hr : r.Each W M) : (e.subst [(x, r)]).Each W M := by
  induction e using inductionOn with
  | int _ | float _ | str _ => trivial
  | var v =>
    rw [subst_var]
    split
    · exact hr
    · next hne => exact (hV v h).resolve_left fun hv => hne hv.symm
  | binary op a b iha ihb => exact ⟨iha h.1, ihb h.2⟩
  | cast t a iha => exact iha h
  | load v is ih =>
    obtain ⟨hv, his⟩ := each_load_iff.1 h
    rw [subst_load, each_load_iff, List.length_map, List.forall_mem_map]
    exact ⟨hL v _ hv, fun i hi => ih i hi (his i hi)⟩
  | call t f as ih =>
    rw [each_call_iff] at h
    rw [subst_call, each_call_iff, List.forall_mem_map]
    exact fun a ha => ih a ha (h a ha)

theorem Each.mono (h : e.Each V L) (hV : ∀ v, V v → W v) (hL : ∀ v n, L v n → M v n) :
    e.Each W M := by
  induction e using inductionOn with
  | int _ | float _ | str _ => trivial
  | var v => exact hV v h
  | binary op a b iha ihb => exact ⟨iha h.1, ihb h.2⟩
  | cast t a iha => exact iha h
  | load v is ih =>
    obtain ⟨hv, his⟩ := each_load_iff.1 h
    exact each_load_iff.2 ⟨hL v _ hv, fun i hi => ih i hi (his i hi)⟩
  | call t f as ih =>
    rw [each_call_iff] at h ⊢
    exact fun a ha => ih a ha (h a ha)

theorem varsAll_eq_flatMap (es : List Expr) : varsAll es = es.flatMap vars := by
  induction es with
  | nil => rfl
  | cons e es ih => rw [varsAll, ih, List.flatMap_cons]

/-- Variables and buffers together are the variables of the expression. -/
theorem each_vars {P : Var → Prop} (h : e.Each P fun v _ => P v) : ∀ v ∈ e.vars, P v := by
  induction e using inductionOn with
  | int _ | float _ | str _ => exact List.forall_mem_nil _
  | var v => exact List.forall_mem_singleton.2 h
  | binary op a b iha ihb => exact List.forall_mem_append.2 ⟨iha h.1, ihb h.2⟩
  | cast t a iha => exact iha h
  | load v is ih =>
    obtain ⟨hv, his⟩ := each_load_iff.1 h
    rw [vars, varsAll_eq_flatMap]
    exact List.forall_mem_cons.2 ⟨hv, List.forall_mem_flatMap.2 fun i hi => ih i hi (his i hi)⟩
  | call t f as ih =>
    rw [each_call_iff] at h
    rw [vars, varsAll_eq_flatMap]
    exact List.forall_mem_flatMap.2 fun a ha => ih a ha (h a ha)

end

end Expr

/-! ## Layouts -/

namespace Layout

open LoopNest.Expr (Each)

variable {V : Var → Prop} {L : Var → Nat → Prop} {is shape : List Expr}

theorem each_strides (hs : ∀ d ∈ shape, d.Each V L) : ∀ s ∈ strides shape, s.Each V L := by
  induction shape with
  | nil => simp [strides]
  | cons c ds ih =>
    have hds : ∀ d ∈ ds, d.Each V L := (List.forall_mem_cons.1 hs).2
    cases ds with
    | nil => simp [strides]
    | cons d ds =>
      have ih := ih hds
      rw [strides]
      cases hstrides : strides (d :: ds) with
      | nil => simp
      | cons s ss =>
        rw [hstrides] at ih
        have hs : s.Each V L := ih s List.mem_cons_self
        have hd : d.Each V L := hds d List.mem_cons_self
        exact List.forall_mem_cons.2 ⟨(hs.mul hd).fold, ih⟩

theorem each_foldl {f : Expr → Expr → Expr}
    (hf : ∀ {a b}, a.Each V L → b.Each V L → (f a b).Each V L) {e : Expr} (he : e.Each V L)
    {es : List Expr} (hes : ∀ x ∈ es, x.Each V L) : (es.foldl f e).Each V L := by
  induction es generalizing e with
  | nil => exact he
  | cons x es ih =>
    obtain ⟨hx, hes⟩ := List.forall_mem_cons.1 hes
    exact ih (hf he hx) hes

/-- **An offset mentions what the indices and the shape mention.** -/
theorem each_offset (his : ∀ i ∈ is, i.Each V L) (hs : ∀ d ∈ shape, d.Each V L) :
    (offset is shape).Each V L := by
  have hterms : ∀ x ∈ terms is shape, x.Each V L := by
    intro x hx
    rw [terms, ← List.map_uncurry_zip_eq_zipWith] at hx
    obtain ⟨⟨i, s⟩, hp, rfl⟩ := List.mem_map.1 hx
    obtain ⟨hi, hs'⟩ := List.of_mem_zip hp
    exact (his i hi).mul (each_strides hs s hs')
  unfold offset
  split
  · exact Expr.each_int 0
  · next t ts hts =>
    rw [hts, List.forall_mem_cons] at hterms
    exact (each_foldl Each.add hterms.1 hterms.2).fold

/-- **A number of elements mentions what the shape mentions.** -/
theorem each_count (hs : ∀ d ∈ shape, d.Each V L) : (count shape).Each V L := by
  unfold count
  split
  · exact Expr.each_int 1
  · next d ds =>
    rw [List.forall_mem_cons] at hs
    exact (each_foldl Each.mul hs.1 hs.2).fold

end Layout

/-! ## Flattening -/

section

variable {V : Var → Prop} {L : Var → Nat → Prop} {T : Shapes}

/-- The shapes of a table mention what may be mentioned, and one index is allowed as well. -/
def Shapes.Offers (T : Shapes) (V : Var → Prop) (L : Var → Nat → Prop) : Prop :=
  ∀ v n shape, L v n → T.find? v = some shape → L v 1 ∧ ∀ d ∈ shape, d.Each V L

theorem Shapes.Offers.flatIndices (hT : T.Offers V L) {v : Var} {is : List Expr}
    (hv : L v is.length) (his : ∀ i ∈ is, i.Each V L) :
    L v (T.flatIndices v is).length ∧ ∀ i ∈ T.flatIndices v is, i.Each V L := by
  unfold Shapes.flatIndices
  split
  · exact ⟨hv, his⟩
  · split
    · next shape hfind =>
      split
      · obtain ⟨hone, hshape⟩ := hT v _ shape hv hfind
        exact ⟨hone, List.forall_mem_singleton.2 (Layout.each_offset his hshape)⟩
      · exact ⟨hv, his⟩
    · exact ⟨hv, his⟩

/-- **A flattened expression mentions the shapes of its accesses besides.** -/
theorem Expr.Each.flatten {e : Expr} (h : e.Each V L) (hT : T.Offers V L) :
    (e.flatten T).Each V L := by
  induction e using inductionOn with
  | int _ | float _ | str _ | var _ => exact h
  | binary op a b iha ihb => exact ⟨iha h.1, ihb h.2⟩
  | cast t a iha => exact iha h
  | load v is ih =>
    obtain ⟨hv, his⟩ := each_load_iff.1 h
    rw [flatten_load, each_load_iff]
    refine hT.flatIndices (by rwa [List.length_map]) ?_
    exact List.forall_mem_map.2 fun i hi => ih i hi (his i hi)
  | call t f as ih =>
    rw [each_call_iff] at h
    rw [flatten_call, each_call_iff, List.forall_mem_map]
    exact fun a ha => ih a ha (h a ha)

end

end LoopNest
