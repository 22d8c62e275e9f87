import LoopNest.Proofs.Interpretation
import LoopNest.Proofs.Slicing

/-!
# Locating is composing the slices

A position in a view is a position in its root: a fixed dimension of the parent has its offset, and
a kept one has `start + k * step` for the next position `k`, from the last view back to the root.

* `Axis`, `Axis.embed`, `Axis.compose`: slices of integers;
* `Cut.Maps`, `View.Maps`: the integers that cuts stand for;
* `Selector.Maps`: the integers that selectors stand for;
* **`View.maps_of_slices`**: the links of a view stand for what was selected;
* **`View.locate_denotes`**: the indices of the root stand for the composed positions;
* **`locate_eq_compose`**: with the elements that are read and written there.
-/

namespace LoopNest

/-! ## Slices of integers -/

/-- What becomes of one dimension of the parent. -/
inductive Axis where
  | fixed (offset : Int)
  | strided (start step : Int)
deriving DecidableEq

namespace Axis

/-- The position in the parent of a position in a slice. Kept dimensions take the next coordinate
each. -/
def embed : List Axis → List Int → List Int
  | [], _ => []
  | fixed k :: as, c => k :: embed as c
  | strided b s :: as, i :: c => (b + i * s) :: embed as c
  | strided _ _ :: _, [] => []

/-- The position in the root, the slices being given from the last one back. -/
def compose (links : List (List Axis)) (c : List Int) : List Int :=
  links.foldl (fun c as => embed as c) c

end Axis

/-! ## Cuts as slices of integers -/

section

variable (D : Expr → Int → Prop)

/-- The integers that a cut stands for. -/
inductive Cut.Maps : Cut → Axis → Prop where
  | fixed {e : Expr} {k : Int} (h : D e k) : Maps (.fixed e) (.fixed k)
  | strided {b s n : Expr} {i k : Int} (hb : D b i) (hs : D s k) :
    Maps (.strided b s n) (.strided i k)

/-- The integers that a selector stands for: without a start it begins at zero, and without a step
it takes every position. -/
inductive Selector.Maps : Selector → Axis → Prop where
  | at {e : Expr} {k : Int} (h : D e k) : Maps (.at e) (.fixed k)
  | span {start stop step : Option Expr} {i k : Int} (hstart : D (start.getD (.int 0)) i)
    (hstep : D (step.getD (.int 1)) k) : Maps (.span start stop step) (.strided i k)

/-- The integers that the links of a view stand for, from the view back to its root. -/
inductive View.Maps : View → List (List Axis) → Prop where
  | root (b : Var) (shape : List Expr) (storage : String) : Maps (.root b shape storage) []
  | sliced {p : View} {cs : List Cut} {as : List Axis} {links : List (List Axis)}
    (hp : Maps p links) (hcs : List.Forall₂ (Cut.Maps D) cs as) : Maps (.sliced p cs) (as :: links)

end

section

variable {D : Expr → Int → Prop}

theorem Cut.exists_maps {c : Cut} (h : ∀ e ∈ c.terms, ∃ n, D e n) : ∃ a, c.Maps D a := by
  cases c with
  | fixed e =>
    obtain ⟨k, hk⟩ := h e (by simp [terms])
    exact ⟨_, .fixed hk⟩
  | strided b s n =>
    obtain ⟨i, hi⟩ := h b (by simp [terms])
    obtain ⟨k, hk⟩ := h s (by simp [terms])
    exact ⟨_, .strided hi hk⟩

theorem Cut.exists_forall₂_maps {cs : List Cut} (h : ∀ e ∈ cs.flatMap terms, ∃ n, D e n) :
    ∃ as, List.Forall₂ (Maps D) cs as := by
  induction cs with
  | nil => exact ⟨[], .nil⟩
  | cons c cs ih =>
    rw [List.flatMap_cons, List.forall_mem_append] at h
    obtain ⟨a, ha⟩ := exists_maps h.1
    obtain ⟨as, has⟩ := ih h.2
    exact ⟨a :: as, .cons ha has⟩

/-- If all that the links depend on stands for integers, so do the links. -/
theorem View.exists_maps {v : View} (h : ∀ e ∈ v.terms, ∃ n, D e n) :
    ∃ links, v.Maps D links := by
  induction v with
  | root b shape storage => exact ⟨[], .root b shape storage⟩
  | sliced p cs ih =>
    rw [terms, List.forall_mem_append] at h
    obtain ⟨links, hp⟩ := ih h.1
    obtain ⟨as, hcs⟩ := Cut.exists_forall₂_maps h.2
    exact ⟨as :: links, .sliced hp hcs⟩

/-- A cut stands for what its selector stands for. -/
theorem Selector.maps_of_cut {s : Selector} {dim : Nat} {extent : Expr} {c : Cut} {a : Axis}
    (hc : s.cut dim extent = .ok c) (ha : c.Maps D a) : s.Maps D a := by
  cases s with
  | «at» e =>
    obtain ⟨-, rfl⟩ := cut_at_eq_ok_iff.1 hc
    obtain ⟨h⟩ := ha
    exact .at h
  | span start stop step =>
    obtain ⟨n, -, -, -, rfl⟩ := cut_span_eq_ok_iff.1 hc
    obtain ⟨-⟩ | ⟨hstart, hstep⟩ := ha
    exact .span hstart hstep

theorem Selector.forall₂_maps_of_cutAll {ss : List Selector} {es : List Expr} {dim : Nat}
    {cs : List Cut} {as : List Axis} (hlen : ss.length = es.length)
    (hcs : cutAll dim ss es = .ok cs) (has : List.Forall₂ (Cut.Maps D) cs as) :
    List.Forall₂ (Maps D) ss as := by
  induction ss generalizing dim es cs as with
  | nil =>
    obtain rfl := Except.ok.inj hcs
    cases has
    exact .nil
  | cons s ss ih =>
    cases es with
    | nil => exact nomatch hlen
    | cons e es =>
      obtain ⟨c, ds, hc, hds, rfl⟩ := cutAll_cons_eq_ok_iff.1 hcs
      cases has with
      | cons ha has => exact .cons (maps_of_cut hc ha) (ih (Nat.succ.inj hlen) hds has)

/-- **The links of a view stand for what was selected**, the last slice first, and then for what the
view that was sliced has. -/
theorem View.maps_of_slices {v w : View} {chain : List (List Selector)} {links : List (List Axis)}
    (hw : v.slices chain = .ok w) (hlinks : w.Maps D links) :
    ∃ taken below, links = taken.reverse ++ below ∧ v.Maps D below ∧
      List.Forall₂ (List.Forall₂ (Selector.Maps D)) chain taken := by
  induction chain generalizing v with
  | nil =>
    obtain rfl := Except.ok.inj hw
    exact ⟨[], links, rfl, hlinks, .nil⟩
  | cons ss chain ih =>
    rw [slices, List.foldlM_cons, bind_eq_ok_iff] at hw
    obtain ⟨u, hu, hw⟩ := hw
    obtain ⟨taken, below, rfl, hbelow, htaken⟩ := ih hw
    obtain ⟨cs, hlen, hcs, -, rfl⟩ := slice_eq_ok_iff.1 hu
    cases hbelow with
    | @sliced _ _ as below hv has =>
      refine ⟨as :: taken, below, ?_, hv, .cons ?_ htaken⟩
      · rw [List.reverse_cons, List.append_assoc]
        rfl
      · exact Selector.forall₂_maps_of_cutAll hlen hcs has

end

/-! ## Locating under an interpretation -/

section

variable {F : Type} {I : Interpretation F} {is : List Expr} {c : List Int}

/-- The next free index, scaled and folded. -/
theorem Interpretation.Denotes.scaled {b i s : Expr} {m k n : Int} (hb : I.Denotes b m)
    (hi : I.Denotes i k) (hs : I.Denotes s n) : I.Denotes (b + i * s).fold (m + k * n) :=
  (hb.add (hi.mul hs)).fold

/-- One link: the positions in the parent stand for the embedded ones. -/
theorem Cut.place_denotes {cs : List Cut} {as : List Axis}
    (hcs : List.Forall₂ (Maps I.Denotes) cs as)
    (hlen : is.length = (cs.filter isStrided).length) (hc : List.Forall₂ I.Denotes is c) :
    ∃ es, place cs is = some es ∧ List.Forall₂ I.Denotes es (Axis.embed as c) ∧
      es.length = cs.length := by
  induction hcs generalizing is c with
  | nil => exact ⟨[], rfl, .nil, rfl⟩
  | @cons cut a cs as hcut _ ih =>
    cases hcut with
    | @fixed e k hk =>
      obtain ⟨es, hes, hden, hn⟩ := ih hlen hc
      refine ⟨e :: es, ?_, .cons hk hden, congrArg Nat.succ hn⟩
      rw [place, hes]
      rfl
    | @strided b s n m k hb hs =>
      cases hc with
      | nil => exact nomatch hlen
      | @cons i j is c hi hc =>
        obtain ⟨es, hes, hden, hn⟩ := ih (Nat.succ.inj hlen) hc
        refine ⟨(b + i * s).fold :: es, ?_, .cons (hb.scaled hi hs) hden, congrArg Nat.succ hn⟩
        rw [place, hes]
        rfl

/-- **Indices of a view are located**, one for each dimension of the root, and stand for the
composed positions. -/
theorem View.locate_denotes {v : View} {links : List (List Axis)} (hv : v.Aligned)
    (hlinks : v.Maps I.Denotes links) (hlen : is.length = v.rank)
    (hc : List.Forall₂ I.Denotes is c) :
    ∃ es, v.locate is = .ok es ∧ List.Forall₂ I.Denotes es (Axis.compose links c) ∧
      es.length = v.base.rank := by
  induction hlinks generalizing is c with
  | root b shape storage =>
    refine ⟨is.map Expr.fold, if_neg (not_not.2 hlen), ?_, (List.length_map _).trans hlen⟩
    exact List.forall₂_map_left_iff.2 (hc.imp fun _ _ h => h.fold)
  | @sliced p cs as links _ hcs ih =>
    obtain ⟨origin, hplace, hden, hn⟩ := Cut.place_denotes hcs (hlen.trans (rank_sliced p cs)) hc
    obtain ⟨es, hes, hes'⟩ := ih hv.1 (hn.trans hv.2) hden
    refine ⟨es, ?_, hes'⟩
    rw [locate, if_neg (not_not.2 hlen)]
    simp only [hplace]
    exact hes

end

/-- **Locating is composing the slices.** In every chain of slices of a root, under every
interpretation that gives integers to the indices and to all offsets, first positions and steps, the
indices are located, and stand for the composed positions. What is composed is what was selected,
slice by slice. Other indices of the root that stand for
these positions load the same element. Reading and writing through the view are done exactly there,
and refused only for a literal index that a literal extent forbids. -/
theorem locate_eq_compose {F : Type} (I : Interpretation F) {b : Var} {shape : List Expr}
    {storage : String} {chain : List (List Selector)} {v : View}
    (hv : (View.root b shape storage).slices chain = .ok v)
    (hterms : ∀ e ∈ v.terms, ∃ n, I.Denotes e n) {is : List Expr} {c : List Int}
    (hlen : is.length = v.rank) (hc : List.Forall₂ I.Denotes is c) :
    ∃ links es, v.Maps I.Denotes links ∧
      List.Forall₂ (List.Forall₂ (Selector.Maps I.Denotes)) chain links.reverse ∧
      v.locate is = .ok es ∧ es.length = shape.length ∧
      List.Forall₂ I.Denotes es (Axis.compose links c) ∧
      (∀ rs, List.Forall₂ I.Denotes rs (Axis.compose links c) →
        ∃ fs, (View.root b shape storage).locate rs = .ok fs ∧
          I.value (.load b fs) = I.value (.load b es)) ∧
      (∀ e, v.element (is.map Selector.at) = .ok e ↔
        Selector.Within is v.shape ∧ e = .load b es) ∧
      I.value (.load b es) = I.memory.cell b (Axis.compose links c) ∧
      ∀ (t t' : Trace) (x : Expr), t.store v (is.map Selector.at) x = .ok t' ↔
        Selector.Within is v.shape ∧ t' = t.add (.store b es x) := by
  obtain ⟨links, hlinks⟩ := View.exists_maps hterms
  have hchain : List.Forall₂ (List.Forall₂ (Selector.Maps I.Denotes)) chain links.reverse := by
    obtain ⟨taken, _, rfl, ⟨⟩, htaken⟩ := View.maps_of_slices hv hlinks
    rwa [List.append_nil, List.reverse_reverse]
  have hbase : v.base = .root b shape storage := View.base_of_slices hv
  have hbuffer : v.buffer = b := by rw [← View.buffer_base, hbase]; rfl
  have haligned : v.Aligned := View.aligned_of_slices (v := .root b shape storage) trivial hv
  obtain ⟨es, hes, hden, hn⟩ := View.locate_denotes haligned hlinks hlen hc
  rw [hbase] at hn
  have hvalue := Interpretation.value_load (v := b) hden
  refine ⟨links, es, hlinks, hchain, hes, hn, hden, fun rs hrs => ?_, fun e => ?_, hvalue,
    fun t t' x => ?_⟩
  · have hrank : rs.length = (View.root b shape storage).rank :=
      hrs.length_eq.trans (hden.length_eq.symm.trans hn)
    obtain ⟨fs, hfs, hden', -⟩ := View.locate_denotes (v := .root b shape storage) trivial
      (.root b shape storage) hrank hrs
    exact ⟨fs, hfs, (Interpretation.value_load hden').trans hvalue.symm⟩
  · rw [View.element_at_eq_ok_iff hlen, hes, hbuffer]
    simp
  · rw [Trace.store_eq_ok_iff]
    simp only [View.select_at_eq_ok_iff hlen, hes, hbuffer]
    constructor
    · rintro ⟨_, _, ⟨hin, hjs, rfl⟩, rfl⟩
      obtain rfl := Except.ok.inj hjs
      exact ⟨hin, rfl⟩
    · rintro ⟨hin, rfl⟩
      exact ⟨b, es, ⟨hin, rfl, rfl⟩, rfl⟩

/-- Whole numbers, where `k` is one, `t[0]` is three, and a call answers with the number of its
arguments. -/
def tiltMeaning : Interpretation Int where
  machine := { Machine.counting with answer := fun _ t _ xs => .ofWhole t xs.length }
  env := Env.zero.set .counting ⟨2, "k", .int32⟩ (.int 1)
  memory := Memory.empty.store .counting ⟨1, "t", .int32⟩ [0] (.int 3)
  typed := ⟨Value.fits_toType, fun _ t _ _ => Value.fits_ofWhole t _⟩
  strict := ⟨fun _ _ _ _ => rfl⟩
  timeless _ _ _ _ := rfl

/-- Every third row from the second on, in a column that is called for; then all but the first of
these rows, at one depth. -/
def tiltChain : List (List Selector) :=
  [[.span (some (.int 1)) none (some (.load ⟨1, "t", .int32⟩ [.int 0])),
      .at (.call .int32 "column" [.var ⟨2, "k", .int32⟩]), .span none none none],
    [.span (some (.int 1)) none none, .at (.int 2)]]

theorem locate_eq_compose_tilt : ∃ v links es,
    (View.root ⟨0, "a", .float32⟩ [.int 8, .int 5, .int 4] "global").slices tiltChain = .ok v ∧
    v.Maps tiltMeaning.Denotes links ∧
    List.Forall₂ (List.Forall₂ (Selector.Maps tiltMeaning.Denotes)) tiltChain links.reverse ∧
    v.locate [.var ⟨2, "k", .int32⟩] = .ok es ∧
    List.Forall₂ tiltMeaning.Denotes es [7, 1, 2] ∧ Axis.compose links [1] = [7, 1, 2] := by
  obtain ⟨v, hv⟩ : ∃ v, (View.root ⟨0, "a", .float32⟩ [.int 8, .int 5, .int 4] "global").slices
      tiltChain = .ok v := ⟨_, rfl⟩
  have hterms : ∀ e ∈ v.terms, ∃ n, tiltMeaning.Denotes e n := by
    obtain rfl := Except.ok.inj hv
    intro e he
    simp only [View.terms, Cut.terms, List.flatMap_cons, List.flatMap_nil, List.nil_append,
      List.cons_append, List.append_nil, List.mem_cons, List.not_mem_nil, or_false] at he
    rcases he with rfl | rfl | rfl | rfl | rfl | rfl | rfl | rfl <;> exact ⟨_, rfl⟩
  have hrank : [Expr.var ⟨2, "k", .int32⟩].length = v.rank := by
    obtain rfl := Except.ok.inj hv
    rfl
  have hindex : List.Forall₂ tiltMeaning.Denotes [.var ⟨2, "k", .int32⟩] [1] := .cons rfl .nil
  obtain ⟨links, es, hlinks, hchain, hes, -, hden, -⟩ :=
    locate_eq_compose tiltMeaning hv hterms hrank hindex
  have hvalues : List.Forall₂ tiltMeaning.Denotes es [7, 1, 2] := by
    obtain rfl := Except.ok.inj hv
    obtain rfl := Except.ok.inj hes
    exact .cons rfl (.cons rfl (.cons rfl .nil))
  exact ⟨v, links, es, hv, hlinks, hchain, hes, hvalues,
    Interpretation.eq_of_forall₂_denotes hden hvalues⟩

end LoopNest
