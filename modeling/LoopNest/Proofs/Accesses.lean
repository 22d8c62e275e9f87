import LoopNest.Proofs.Mentions
import LoopNest.Proofs.Slicing

/-!
# Accesses of expressions

An access is a buffer with a number of indices. Folding and substitution make no new ones, and
flattening leaves one with several indices only where it has no shape for the buffer, or where a
shape itself has such accesses. An expression whose loads all go through arrays accesses each array
with as many indices as it has dimensions.

* `Expr.accesses`, `Expr.Only`: the loads of an expression, and a property of all of them;
* **`Expr.Only.fold`**, **`Expr.Only.subst`**, **`Expr.Only.flatten`**: the passes;
* `View.Yields`: the expressions that a view gives;
* `Expr.Through`: expressions that load through arrays only;
* **`Expr.Through.only`**: what they access.
-/

namespace LoopNest

namespace Expr

mutual

/-- The loads of an expression, each with the number of its indices. -/
def accesses : Expr → List (Var × Nat)
  | int _ | float _ | str _ | var _ => []
  | binary _ a b => a.accesses ++ b.accesses
  | cast _ a => a.accesses
  | load v is => (v, is.length) :: accessesAll is
  | call _ _ as => accessesAll as

/-- The loads of expressions. -/
def accessesAll : List Expr → List (Var × Nat)
  | [] => []
  | e :: es => e.accesses ++ accessesAll es

end

theorem accessesAll_eq_flatMap (es : List Expr) : accessesAll es = es.flatMap accesses := by
  induction es with
  | nil => rfl
  | cons e es ih => rw [accessesAll, ih, List.flatMap_cons]

/-- Every load, as buffer and number of indices, has a property. -/
def Only (Q : Var × Nat → Prop) (e : Expr) : Prop := ∀ p ∈ e.accesses, Q p

section

variable {Q R : Var × Nat → Prop} {op : Operator} {a b e : Expr} {es : List Expr}

theorem only_of_accesses_eq_nil (h : e.accesses = []) : e.Only Q := by
  intro p hp
  rw [h] at hp
  exact nomatch hp

@[simp] theorem only_int (n : Word) : (int n).Only Q := only_of_accesses_eq_nil rfl

theorem only_binary_iff : (binary op a b).Only Q ↔ a.Only Q ∧ b.Only Q := List.forall_mem_append

theorem forall_mem_accessesAll_iff : (∀ p ∈ accessesAll es, Q p) ↔ ∀ e ∈ es, e.Only Q := by
  rw [accessesAll_eq_flatMap, List.forall_mem_flatMap]
  rfl

theorem only_load_iff {v : Var} :
    (load v es).Only Q ↔ Q (v, es.length) ∧ ∀ e ∈ es, e.Only Q := by
  rw [← forall_mem_accessesAll_iff]
  exact List.forall_mem_cons

theorem only_call_iff {t : ElemType} {f : String} : (call t f es).Only Q ↔ ∀ e ∈ es, e.Only Q :=
  forall_mem_accessesAll_iff

theorem Only.mono (h : e.Only Q) (hQ : ∀ p, Q p → R p) : e.Only R := fun p hp => hQ p (h p hp)

theorem Only.add (ha : a.Only Q) (hb : b.Only Q) : (a + b).Only Q := only_binary_iff.2 ⟨ha, hb⟩

theorem Only.sub (ha : a.Only Q) (hb : b.Only Q) : (a - b).Only Q := only_binary_iff.2 ⟨ha, hb⟩

theorem Only.mul (ha : a.Only Q) (hb : b.Only Q) : (a * b).Only Q := only_binary_iff.2 ⟨ha, hb⟩

/-- A property of all loads is one of all that is mentioned. -/
theorem only_iff_each : e.Only Q ↔ e.Each (fun _ => True) fun v n => Q (v, n) := by
  induction e using inductionOn with
  | int _ | float _ | str _ | var _ =>
    exact ⟨fun _ => trivial, fun _ => only_of_accesses_eq_nil rfl⟩
  | binary op a b iha ihb => exact only_binary_iff.trans (and_congr iha ihb)
  | cast t a iha => exact iha
  | load v is ih =>
    rw [only_load_iff, each_load_iff]
    exact and_congr Iff.rfl (forall₂_congr ih)
  | call t f as ih =>
    rw [only_call_iff, each_call_iff]
    exact forall₂_congr ih

/-! ## Passes -/

/-- **Folding makes no new accesses.** -/
theorem Only.fold (h : e.Only Q) : e.fold.Only Q := only_iff_each.2 (only_iff_each.1 h).fold

/-- **What is put in for a variable brings its own accesses only.** -/
theorem Only.subst {x : Var} {r : Expr} (h : e.Only Q) (hr : r.Only Q) :
    (e.subst [(x, r)]).Only Q := by
  rw [only_iff_each] at h hr ⊢
  exact h.subst (fun _ _ => .inr trivial) (fun _ _ hv => hv) hr

end

end Expr

/-! ## Layouts -/

namespace Layout

open LoopNest.Expr (only_iff_each)

variable {Q : Var × Nat → Prop} {is shape : List Expr}

/-- An offset has the accesses of the indices and of the shape. -/
theorem only_offset (his : ∀ i ∈ is, i.Only Q) (hs : ∀ d ∈ shape, d.Only Q) :
    (offset is shape).Only Q := by
  simp only [only_iff_each] at his hs ⊢
  exact each_offset his hs

theorem only_count (hs : ∀ d ∈ shape, d.Only Q) : (count shape).Only Q := by
  simp only [only_iff_each] at hs ⊢
  exact each_count hs

end Layout

/-! ## Flattening -/

section

variable {Q R : Var × Nat → Prop} {T : Shapes}

/-- Flat indices are few, or there is no shape that fits them. -/
theorem Shapes.only_flatIndices (hlow : ∀ v n, n < 2 → R (v, n))
    (hT : ∀ p ∈ T, ∀ d ∈ p.2, d.Only R) {v : Var} {is : List Expr}
    (hv : (∀ shape, T.find? v = some shape → shape.length ≠ is.length) → R (v, is.length))
    (his : ∀ i ∈ is, i.Only R) :
    R (v, (T.flatIndices v is).length) ∧ ∀ i ∈ T.flatIndices v is, i.Only R := by
  unfold flatIndices
  split
  · next hlen => exact ⟨hlow v _ hlen, his⟩
  · split
    · next shape hfind =>
      split
      · refine ⟨hlow v 1 (by decide), List.forall_mem_singleton.2 ?_⟩
        exact Layout.only_offset his (hT _ (mem_of_find? hfind))
      · next hne =>
        refine ⟨hv fun shape' hfind' => ?_, his⟩
        obtain rfl := Option.some.inj (hfind.symm.trans hfind')
        exact hne
    · next hfind =>
      refine ⟨hv fun shape hfind' => ?_, his⟩
      rw [hfind] at hfind'
      exact nomatch hfind'

/-- **What is left after flattening.** -/
theorem Expr.Only.flatten (hlow : ∀ v n, n < 2 → R (v, n)) (hT : ∀ p ∈ T, ∀ d ∈ p.2, d.Only R)
    (hQ : ∀ v n, Q (v, n) → (∀ shape, T.find? v = some shape → shape.length ≠ n) → R (v, n))
    {e : Expr} (h : e.Only Q) : (e.flatten T).Only R := by
  induction e using inductionOn with
  | int _ | float _ | str _ | var _ => exact only_of_accesses_eq_nil rfl
  | binary op a b iha ihb =>
    obtain ⟨ha, hb⟩ := only_binary_iff.1 h
    exact only_binary_iff.2 ⟨iha ha, ihb hb⟩
  | cast t a iha => exact iha h
  | load v is ih =>
    obtain ⟨hv, his⟩ := only_load_iff.1 h
    have his' : ∀ i ∈ is.map (Expr.flatten T), i.Only R := by
      rw [List.forall_mem_map]
      exact fun i hi => ih i hi (his i hi)
    rw [flatten_load, only_load_iff]
    refine Shapes.only_flatIndices hlow hT (fun hfind => ?_) his'
    rw [List.length_map] at hfind ⊢
    exact hQ v _ hv hfind
  | call t f as ih =>
    rw [only_call_iff] at h
    rw [flatten_call, only_call_iff, List.forall_mem_map]
    exact fun a ha => ih a ha (h a ha)

end

/-! ## Views -/

/-- The expressions of a view have a property: those that its links depend on, and its extents. -/
structure View.Only (Q : Var × Nat → Prop) (v : View) : Prop where
  terms : ∀ e ∈ v.terms, e.Only Q
  shape : ∀ e ∈ v.shape, e.Only Q

section

variable {Q : Var × Nat → Prop}

theorem Selector.only_spanExtent {dim : Nat} {start stop step n : Expr} (hstart : start.Only Q)
    (hstop : stop.Only Q) (hstep : step.Only Q) (h : spanExtent dim start stop step = .ok n) :
    n.Only Q := by
  have hwidth : (stop - start).Only Q := hstop.sub hstart
  have hround : (stop - start + (step - .int 1)).Only Q := hwidth.add (hstep.sub (Expr.only_int 1))
  unfold spanExtent at h
  split at h
  · split at h
    · exact nomatch h
    · split at h
      · exact nomatch h
      · exact Except.ok.inj h ▸ Expr.only_int _
  · exact Except.ok.inj h ▸ hwidth.fold
  · exact Except.ok.inj h ▸ (Expr.only_binary_iff.2 ⟨hround, hstep⟩).fold

theorem Selector.only_getD {o : Option Expr} {d : Expr} (ho : ∀ e ∈ o.toList, e.Only Q)
    (hd : d.Only Q) : (o.getD d).Only Q := by
  cases o with
  | none => exact hd
  | some e => exact ho e (by simp)

theorem Selector.only_cut {dim : Nat} {s : Selector} {extent : Expr} {c : Cut}
    (hs : ∀ e ∈ s.exprs, e.Only Q) (hextent : extent.Only Q) (hc : s.cut dim extent = .ok c) :
    (∀ e ∈ c.terms, e.Only Q) ∧ ∀ e ∈ c.extent?, e.Only Q := by
  cases s with
  | «at» e =>
    obtain ⟨-, rfl⟩ := cut_at_eq_ok_iff.1 hc
    exact ⟨hs, fun e he => nomatch he⟩
  | span start stop step =>
    simp only [exprs, List.forall_mem_append] at hs
    obtain ⟨⟨hstart, hstop⟩, hstep⟩ := hs
    obtain ⟨n, -, -, hn, rfl⟩ := cut_span_eq_ok_iff.1 hc
    have hstart := only_getD hstart (Expr.only_int 0)
    have hstep := only_getD hstep (Expr.only_int 1)
    have hn := only_spanExtent hstart (only_getD hstop hextent) hstep hn
    refine ⟨?_, fun e he => ?_⟩
    · simp only [Cut.terms, List.forall_mem_cons, List.not_mem_nil, false_implies, implies_true,
        and_true]
      exact ⟨hstart, hstep⟩
    · obtain rfl := Option.some.inj he
      exact hn

theorem Selector.only_cutAll {dim : Nat} {ss : List Selector} {es : List Expr} {cs : List Cut}
    (hss : ∀ s ∈ ss, ∀ e ∈ s.exprs, e.Only Q) (hes : ∀ e ∈ es, e.Only Q)
    (hcs : cutAll dim ss es = .ok cs) :
    (∀ e ∈ cs.flatMap Cut.terms, e.Only Q) ∧ ∀ e ∈ cs.filterMap Cut.extent?, e.Only Q := by
  induction ss generalizing dim es cs with
  | nil =>
    obtain rfl := Except.ok.inj hcs
    simp
  | cons s ss ih =>
    cases es with
    | nil =>
      obtain rfl := Except.ok.inj hcs
      simp
    | cons e es =>
      obtain ⟨hs, hss⟩ := List.forall_mem_cons.1 hss
      obtain ⟨he, hes⟩ := List.forall_mem_cons.1 hes
      obtain ⟨c, ds, hc, hds, rfl⟩ := cutAll_cons_eq_ok_iff.1 hcs
      obtain ⟨hterms, hextent⟩ := only_cut hs he hc
      obtain ⟨hterms', hextents⟩ := ih hss hes hds
      refine ⟨List.forall_mem_append.2 ⟨hterms, hterms'⟩, fun x hx => ?_⟩
      obtain ⟨c', hc', hxc⟩ := List.mem_filterMap.1 hx
      rcases List.mem_cons.1 hc' with rfl | hc'
      · exact hextent x hxc
      · exact hextents x (List.mem_filterMap.2 ⟨c', hc', hxc⟩)

namespace View

variable {v w : View}

theorem Only.slice {ss : List Selector} (hv : v.Only Q) (hss : ∀ s ∈ ss, ∀ e ∈ s.exprs, e.Only Q)
    (hw : v.slice ss = .ok w) : w.Only Q := by
  obtain ⟨cs, -, hcs, -, rfl⟩ := slice_eq_ok_iff.1 hw
  obtain ⟨hterms, hextents⟩ := Selector.only_cutAll hss hv.shape hcs
  exact ⟨List.forall_mem_append.2 ⟨hv.terms, hterms⟩, hextents⟩

/-- **A chain of slices brings the accesses of its selectors.** -/
theorem Only.slices {chain : List (List Selector)} (hv : v.Only Q)
    (hchain : ∀ ss ∈ chain, ∀ s ∈ ss, ∀ e ∈ s.exprs, e.Only Q) (hw : v.slices chain = .ok w) :
    w.Only Q :=
  slices_induction hw hv fun _ _ ss hss hu hx => hu.slice (hchain ss hss) hx

end View

theorem Cut.only_place {cs : List Cut} {is es : List Expr}
    (hcs : ∀ e ∈ cs.flatMap terms, e.Only Q) (his : ∀ i ∈ is, i.Only Q)
    (h : place cs is = some es) : ∀ e ∈ es, e.Only Q := by
  induction cs generalizing is es with
  | nil =>
    obtain rfl := Option.some.inj h
    simp
  | cons c cs ih =>
    rw [List.flatMap_cons, List.forall_mem_append] at hcs
    obtain ⟨hc, hcs⟩ := hcs
    cases c with
    | fixed e =>
      obtain ⟨fs, hfs, rfl⟩ := Option.map_eq_some_iff.1 h
      exact List.forall_mem_cons.2 ⟨hc e (by simp [terms]), ih hcs his hfs⟩
    | strided b s n =>
      cases is with
      | nil => exact nomatch h
      | cons i is =>
        obtain ⟨hi, his⟩ := List.forall_mem_cons.1 his
        obtain ⟨fs, hfs, rfl⟩ := Option.map_eq_some_iff.1 h
        have hb : b.Only Q := hc b (by simp [terms])
        have hs : s.Only Q := hc s (by simp [terms])
        exact List.forall_mem_cons.2 ⟨(hb.add (hi.mul hs)).fold, ih hcs his hfs⟩

namespace View

variable {v : View} {is es : List Expr}

theorem locate_root_eq_ok {b : Var} {shape : List Expr} {storage : String}
    (h : (root b shape storage).locate is = .ok es) :
    is.length = shape.length ∧ es = is.map Expr.fold := by
  unfold locate at h
  split at h
  · exact nomatch h
  · next hlen => exact ⟨not_not.1 hlen, (Except.ok.inj h).symm⟩

theorem locate_sliced_eq_ok {p : View} {cs : List Cut} (h : (sliced p cs).locate is = .ok es) :
    ∃ origin, Cut.place cs is = some origin ∧ p.locate origin = .ok es := by
  by_cases hlen : is.length = (sliced p cs).rank
  · rw [locate, if_neg (not_not.2 hlen)] at h
    split at h
    · exact nomatch h
    · next origin horigin => exact ⟨origin, horigin, h⟩
  · rw [locate, if_pos hlen] at h
    exact nomatch h

theorem Only.locate (hv : v.Only Q) (his : ∀ i ∈ is, i.Only Q) (h : v.locate is = .ok es) :
    ∀ e ∈ es, e.Only Q := by
  have hterms := hv.terms
  clear hv
  induction v generalizing is with
  | root b shape storage =>
    obtain ⟨-, rfl⟩ := locate_root_eq_ok h
    rw [List.forall_mem_map]
    exact fun i hi => (his i hi).fold
  | sliced p cs ih =>
    rw [View.terms, List.forall_mem_append] at hterms
    obtain ⟨origin, horigin, h⟩ := locate_sliced_eq_ok h
    exact ih (Cut.only_place hterms.2 his horigin) h hterms.1

/-- There is one located index for each dimension of the root. -/
theorem length_of_locate (hv : v.Aligned) (h : v.locate is = .ok es) :
    es.length = v.base.rank := by
  induction v generalizing is with
  | root b shape storage =>
    obtain ⟨hlen, rfl⟩ := locate_root_eq_ok h
    exact (List.length_map _).trans hlen
  | sliced p cs ih =>
    obtain ⟨origin, -, h⟩ := locate_sliced_eq_ok h
    exact ih hv.1 h

theorem Only.select {ss : List Selector} {b : Var} (hv : v.Only Q)
    (hss : ∀ s ∈ ss, ∀ e ∈ s.exprs, e.Only Q) (h : v.select ss = .ok (.element b is)) :
    ∀ i ∈ is, i.Only Q := by
  obtain ⟨cs, -, hcs, -, his, -⟩ := select_eq_element_iff.1 h
  obtain ⟨hterms, -⟩ := Selector.only_cutAll hss hv.shape hcs
  refine hv.locate (fun e he => hterms e ?_) his
  obtain ⟨c, hc, he⟩ := List.mem_filterMap.1 he
  cases c with
  | fixed k =>
    obtain rfl := Option.some.inj he
    exact List.mem_flatMap.2 ⟨_, hc, List.mem_singleton_self _⟩
  | strided => exact nomatch he

/-- An element of a view is one of its root. -/
theorem access_of_select {ss : List Selector} {b : Var} (hv : v.Aligned)
    (h : v.select ss = .ok (.element b is)) : b = v.buffer ∧ is.length = v.base.rank := by
  obtain ⟨cs, -, -, -, his, rfl⟩ := select_eq_element_iff.1 h
  exact ⟨rfl, length_of_locate hv his⟩

end View

end

/-! ## Through arrays -/

/-- The expressions that a view gives, and the expressions that it is given for them: an element, an
extent, and an index of the root. -/
inductive View.Yields (v : View) : List Expr → Expr → Prop where
  | element {ss : List Selector} {e : Expr} (h : v.element ss = .ok e) :
    Yields v (ss.flatMap Selector.exprs) e
  | extent {e : Expr} (h : e ∈ v.shape) : Yields v [] e
  | index {is es : List Expr} {e : Expr} (h : v.locate is = .ok es) (he : e ∈ es) : Yields v is e

/-- An expression with no loads but those through arrays and views cut out of them. -/
inductive Expr.Through (arrays : List View) : Expr → Prop where
  | int (n : Word) : Through arrays (.int n)
  | float (x : Binary64) : Through arrays (.float x)
  | str (s : String) : Through arrays (.str s)
  | var (v : Var) : Through arrays (.var v)
  | binary {op : Operator} {a b : Expr} (ha : Through arrays a) (hb : Through arrays b) :
    Through arrays (.binary op a b)
  | cast {t : ElemType} {a : Expr} (ha : Through arrays a) : Through arrays (.cast t a)
  | call {t : ElemType} {f : String} {as : List Expr} (has : ∀ a ∈ as, Through arrays a) :
    Through arrays (.call t f as)
  | view {a v : View} {chain : List (List Selector)} {used : List Expr} {e : Expr} (ha : a ∈ arrays)
    (hchain : ∀ ss ∈ chain, ∀ s ∈ ss, ∀ x ∈ s.exprs, Through arrays x)
    (hv : a.slices chain = .ok v) (hused : ∀ x ∈ used, Through arrays x) (he : v.Yields used e) :
    Through arrays e

section

variable {Q : Var × Nat → Prop} {a v : View} {chain : List (List Selector)}

theorem View.base_of_isBase (h : a.isBase = true) : a.base = a := by
  cases a with
  | root => rfl
  | sliced => exact nomatch h

theorem View.aligned_of_isBase (h : a.isBase = true) : a.Aligned := by
  cases a with
  | root => trivial
  | sliced => exact nomatch h

theorem View.Only.of_isBase (h : a.isBase = true) (hs : ∀ e ∈ a.shape, e.Only Q) : a.Only Q := by
  cases a with
  | root => exact ⟨fun e he => (nomatch he), hs⟩
  | sliced => exact nomatch h

/-- An element of a view cut out of an array is one of the array. -/
theorem View.access_of_slices (h : a.isBase = true) (hv : a.slices chain = .ok v)
    {ss : List Selector} {b : Var} {is : List Expr} (his : v.select ss = .ok (.element b is)) :
    (b, is.length) = (a.buffer, a.rank) := by
  have hbase : v.base = a := (base_of_slices hv).trans (base_of_isBase h)
  obtain ⟨rfl, hlen⟩ := access_of_select (aligned_of_slices (aligned_of_isBase h) hv) his
  rw [hlen, hbase, ← buffer_base, hbase]

/-- **What loads through arrays has their accesses only**, and those of their extents. -/
theorem Expr.Through.only {arrays : List View} {e : Expr} (h : e.Through arrays)
    (harrays : ∀ a ∈ arrays, a.isBase = true ∧ Q (a.buffer, a.rank) ∧ ∀ d ∈ a.shape, d.Only Q) :
    e.Only Q := by
  induction h with
  | int | float | str | var => exact only_of_accesses_eq_nil rfl
  | binary _ _ iha ihb => exact only_binary_iff.2 ⟨iha, ihb⟩
  | cast _ ih => exact ih
  | call _ ih => exact only_call_iff.2 ih
  | @view a v chain used e ha _ hv _ he ihchain ihused =>
    obtain ⟨hroot, haccess, hshape⟩ := harrays a ha
    have hview : v.Only Q := (View.Only.of_isBase hroot hshape).slices ihchain hv
    cases he with
    | element h =>
      obtain ⟨is, his, rfl⟩ := View.element_eq_ok_iff.1 h
      have hselectors := fun s hs x hx => ihused x (List.mem_flatMap.2 ⟨s, hs, hx⟩)
      refine only_load_iff.2 ⟨?_, hview.select hselectors his⟩
      rw [View.access_of_slices hroot hv his]
      exact haccess
    | extent h => exact hview.shape e h
    | index h he => exact hview.locate ihused h e he

end

end LoopNest
