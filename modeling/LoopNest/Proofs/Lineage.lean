import LoopNest.Kernel.Build
import LoopNest.Proofs.Accesses

/-!
# Views and their roots

A view keeps count at every link back to its root: it has one cut for each dimension of its parent,
and the cuts keep as many dimensions as the view has. So its indices never run out on the way, an
element has as many indices as the root has dimensions, and flattening sees the root alone.

* `View.lineage`, `View.Linked`: the links of a view, and what holds of one of them;
* `View.Addresses`: positions and the element of the root that they address;
* `View.CutFrom`, `View.Consistent`: views cut out of a buffer, and what holds of them;
* **`Cut.place_eq_none_iff`**: indices run out exactly if there are too few;
* **`View.linked_of_slices`**: every link of a chain of slices;
* **`View.locate_eq_error_iff`**: nothing but a wrong number of indices is refused;
* **`View.select_element_iff`**: an element is selected by positions in all dimensions;
* **`cut_views_consistent`**: with what flattening makes of such views.
-/

namespace LoopNest

/-! ## Links -/

namespace Cut

variable {cs : List Cut} {is origin : List Expr}

/-- There is one position for each cut. -/
theorem length_of_place (h : place cs is = some origin) : origin.length = cs.length := by
  induction cs generalizing is origin with
  | nil =>
    obtain rfl := Option.some.inj h
    rfl
  | cons c cs ih =>
    cases c with
    | fixed e =>
      obtain ⟨rest, hrest, rfl⟩ := Option.map_eq_some_iff.1 h
      exact congrArg Nat.succ (ih hrest)
    | strided b s n =>
      cases is with
      | nil => exact nomatch h
      | cons i is =>
        obtain ⟨rest, hrest, rfl⟩ := Option.map_eq_some_iff.1 h
        exact congrArg Nat.succ (ih hrest)

/-- **Indices run out exactly if there are fewer than dimensions that are kept.** -/
theorem place_eq_none_iff : place cs is = none ↔ is.length < (cs.filter isStrided).length := by
  induction cs generalizing is with
  | nil => simp [place]
  | cons c cs ih =>
    cases c with
    | fixed e =>
      rw [place, Option.map_eq_none_iff, ih]
      rfl
    | strided b s n =>
      cases is with
      | nil => exact iff_of_true rfl (Nat.succ_pos _)
      | cons i is =>
        rw [place, Option.map_eq_none_iff, ih]
        exact Nat.succ_lt_succ_iff.symm

theorem exists_place (h : is.length = (cs.filter isStrided).length) :
    ∃ origin, place cs is = some origin ∧ origin.length = cs.length := by
  cases horigin : place cs is with
  | none =>
    have hlt := place_eq_none_iff.1 horigin
    omega
  | some origin => exact ⟨origin, rfl, length_of_place horigin⟩

end Cut

namespace View

variable {r v w p : View} {ss : List Selector} {is es : List Expr}

/-- A view and the views that it was cut out of, back to its root. -/
def lineage : View → List View
  | .root b shape storage => [.root b shape storage]
  | sliced p cs => sliced p cs :: p.lineage

theorem mem_lineage_self (v : View) : v ∈ v.lineage := by
  cases v with
  | root => exact List.mem_singleton_self _
  | sliced => exact List.mem_cons_self

/-- The link between a view and the parent that it was cut out of. -/
structure Linked (p v : View) : Prop where
  /-- There is one cut for each dimension of the parent. -/
  length_cuts : v.cuts.length = p.rank
  /-- The cuts keep as many dimensions as the view has. -/
  kept : (v.cuts.filter Cut.isStrided).length = v.rank
  /-- One dimension at least is kept. -/
  rank_pos : 1 ≤ v.rank
  /-- One index for each dimension of the view gives one for each dimension of the parent. -/
  place : ∀ is : List Expr, is.length = v.rank →
    ∃ origin, Cut.place v.cuts is = some origin ∧ origin.length = p.rank

/-- A slice is linked to the view that is sliced. -/
theorem linked_of_slice (hw : v.slice ss = .ok w) : v.Linked w := by
  have hcuts := length_cuts_of_slice hw
  obtain ⟨cs, -, -, hany, rfl⟩ := slice_eq_ok_iff.1 hw
  have hkept := (rank_sliced v cs).symm
  refine ⟨hcuts, hkept, ?_, fun is his => ?_⟩
  · obtain ⟨c, hc, hstrided⟩ := List.any_eq_true.1 hany
    rw [← hkept]
    exact List.length_pos_of_mem (List.mem_filter.2 ⟨hc, hstrided⟩)
  · obtain ⟨origin, horigin, hlen⟩ := Cut.exists_place (his.trans hkept.symm)
    exact ⟨origin, horigin, hlen.trans hcuts⟩

/-- **A chain of slices is linked from the last view back to the buffer.** -/
theorem linked_of_slices {chain : List (List Selector)} (hr : r.isBase = true)
    (hv : r.slices chain = .ok v) : ∀ u ∈ v.lineage, ∀ p, u.parent? = some p → p.Linked u := by
  refine slices_induction (P := fun v => ∀ u ∈ v.lineage, ∀ p, u.parent? = some p → p.Linked u) hv
    ?_ fun v w ss _ ih hw => ?_
  · cases r with
    | root b shape storage =>
      intro u hu p hp
      obtain rfl := List.mem_singleton.1 hu
      exact nomatch hp
    | sliced => exact nomatch hr
  · have hlink := linked_of_slice hw
    obtain ⟨cs, -, -, -, rfl⟩ := slice_eq_ok_iff.1 hw
    refine List.forall_mem_cons.2 ⟨fun p hp => ?_, ih⟩
    obtain rfl := Option.some.inj hp
    exact hlink

/-! ## Locating -/

/-- One index for each dimension is located. -/
theorem exists_locate (hv : v.Aligned) (hlen : is.length = v.rank) :
    ∃ es, v.locate is = .ok es := by
  induction v generalizing is with
  | root b shape storage => exact ⟨is.map Expr.fold, if_neg (not_not.2 hlen)⟩
  | sliced p cs ih =>
    -- what is handed on has one index for each cut, that is, for each dimension of the parent
    obtain ⟨origin, horigin, hn⟩ := Cut.exists_place (hlen.trans (rank_sliced p cs))
    obtain ⟨es, hes⟩ := ih hv.1 (hn.trans hv.2)
    refine ⟨es, ?_⟩
    rw [locate, if_neg (not_not.2 hlen)]
    simp only [horigin]
    exact hes

/-- **Nothing but a wrong number of indices is refused**, and it is refused at the view itself. -/
theorem locate_eq_error_iff (hv : v.Aligned) {e : Error} : v.locate is = .error e ↔
    is.length ≠ v.rank ∧ e = .shapeMismatch v.rank is.length := by
  by_cases hlen : is.length = v.rank
  · obtain ⟨es, hes⟩ := exists_locate hv hlen
    rw [hes]
    exact iff_of_false (fun h => nomatch h) fun h => h.1 hlen
  · have herror : v.locate is = .error (.shapeMismatch v.rank is.length) := by
      unfold locate
      exact if_pos hlen
    rw [herror, Except.error.injEq]
    exact ⟨fun h => ⟨hlen, h.symm⟩, fun h => h.2.symm⟩

end View

/-! ## Elements -/

/-- Where no dimension is kept, every selector is a position. -/
theorem Selector.exists_positions {dim : Nat} {ss : List Selector} {es : List Expr} {cs : List Cut}
    (hlen : ss.length = es.length) (hcs : cutAll dim ss es = .ok cs)
    (hany : cs.any Cut.isStrided = false) : ∃ is : List Expr, ss = is.map Selector.at := by
  induction ss generalizing dim es cs with
  | nil => exact ⟨[], rfl⟩
  | cons s ss ih =>
    cases es with
    | nil => exact nomatch hlen
    | cons e es =>
      obtain ⟨c, ds, hc, hds, rfl⟩ := cutAll_cons_eq_ok_iff.1 hcs
      rw [List.any_cons, Bool.or_eq_false_iff] at hany
      obtain ⟨is, rfl⟩ := ih (Nat.succ.inj hlen) hds hany.2
      cases s with
      | «at» i => exact ⟨i :: is, rfl⟩
      | span start stop step =>
        obtain ⟨n, -, -, -, rfl⟩ := cut_span_eq_ok_iff.1 hc
        exact nomatch hany.1

namespace View

variable {r v : View} {ss : List Selector} {es : List Expr}

/-- The selectors are positions in all dimensions, none forbidden by a literal extent, and the
indices are where the root has their element. -/
def Addresses (v : View) (ss : List Selector) (es : List Expr) : Prop :=
  ∃ is, ss = is.map Selector.at ∧ Selector.Within is v.shape ∧ v.locate is = .ok es

/-- **An element is selected by positions in all dimensions**, and by nothing else. -/
theorem select_element_iff {b : Var} :
    v.select ss = .ok (.element b es) ↔ v.Addresses ss es ∧ b = v.buffer := by
  constructor
  · intro h
    obtain ⟨cs, hlen, hcs, hany, -⟩ := select_eq_element_iff.1 h
    obtain ⟨is, rfl⟩ := Selector.exists_positions hlen hcs hany
    rw [List.length_map] at hlen
    obtain ⟨hin, hes, hb⟩ := (select_at_eq_ok_iff hlen).1 h
    exact ⟨⟨is, rfl, hin, hes⟩, hb⟩
  · rintro ⟨⟨is, rfl, hin, hes⟩, hb⟩
    exact (select_at_eq_ok_iff (List.Forall₂.length_eq hin)).2 ⟨hin, hes, hb⟩

theorem Addresses.length_eq (hv : v.Aligned) (h : v.Addresses ss es) : es.length = v.base.rank := by
  obtain ⟨is, -, -, hes⟩ := h
  exact length_of_locate hv hes

/-- Elements of the root are numbered by its layout, whatever view they were addressed through. -/
theorem Addresses.flatIndices_eq (hv : v.Aligned) (h : v.Addresses ss es) {T : Shapes}
    (hT : T.find? v.base.buffer = some v.base.shape) (hrank : 2 ≤ v.base.rank) :
    T.flatIndices v.base.buffer es = [Layout.offset es v.base.shape] := by
  have hlen : es.length = v.base.shape.length := h.length_eq hv
  have hmany : ¬es.length < 2 := Nat.not_lt.2 (hlen ▸ hrank)
  rw [Shapes.flatIndices, if_neg hmany, hT]
  exact if_pos hlen.symm

/-! ## Views cut out of buffers -/

theorem storage_base (v : View) : v.base.storage = v.storage := by
  induction v with
  | root b s c => rfl
  | sliced p cs ih => exact ih

theorem base_base (v : View) : v.base.base = v.base := by
  induction v with
  | root b s c => rfl
  | sliced p cs ih => exact ih

/-- Flattening knows of views what it knows of their roots. -/
theorem shapes_base (views : List View) : shapes (views.map base) = shapes views := by
  simp only [shapes, List.map_map, Function.comp_def, base_base]

/-- The view is cut out of a whole buffer, by any number of slices. -/
def CutFrom (r v : View) : Prop := r.isBase = true ∧ ∃ chain, r.slices chain = .ok v

/-- What holds of a view that is cut out of a buffer. The buffer, its type, the storage class and
the number of kept dimensions are not written down at a slice but computed by `View.buffer`,
`View.storage` and `View.rank`: the first three fields, and in `linked` that kept dimensions are
counted by the rank, hold of every view by its design. The other fields rest on what a slice
checks. -/
structure Consistent (v : View) : Prop where
  /-- The variable is that of the root. -/
  buffer : v.buffer = v.base.buffer
  /-- The element type is that of the root. -/
  type : v.buffer.type = v.base.buffer.type
  /-- The storage class is that of the root. -/
  storage : v.storage = v.base.storage
  /-- Every view back to the root is linked to its parent. -/
  linked : ∀ u ∈ v.lineage, ∀ p, u.parent? = some p → p.Linked u
  /-- Indices are refused exactly if there are not as many as the view has dimensions. -/
  locate : ∀ is e, v.locate is = .error e ↔
    is.length ≠ v.rank ∧ e = .shapeMismatch v.rank is.length
  /-- A load has as many indices as the root has dimensions. -/
  element : ∀ ss e, v.element ss = .ok e ↔
    ∃ es, v.Addresses ss es ∧ es.length = v.base.rank ∧ e = .load v.base.buffer es
  /-- A store has as many indices as the root has dimensions. -/
  store : ∀ (t t' : Trace) ss x, t.store v ss x = .ok t' ↔
    ∃ es, v.Addresses ss es ∧ es.length = v.base.rank ∧ t' = t.add (.store v.base.buffer es x)
  /-- Flattening by the shape of the root makes one offset of these indices. -/
  flat : ∀ (T : Shapes) ss es, T.find? v.base.buffer = some v.base.shape → 2 ≤ v.base.rank →
    v.Addresses ss es → T.flatIndices v.base.buffer es = [Layout.offset es v.base.shape]

theorem CutFrom.base_eq (h : r.CutFrom v) : v.base = r := by
  obtain ⟨hr, chain, hv⟩ := h
  exact (base_of_slices hv).trans (base_of_isBase hr)

theorem CutFrom.consistent (h : r.CutFrom v) : v.Consistent := by
  obtain ⟨hr, chain, hv⟩ := h
  have haligned := aligned_of_slices (aligned_of_isBase hr) hv
  have hbuffer := (buffer_base v).symm
  refine ⟨hbuffer, congrArg Var.type hbuffer, (storage_base v).symm, linked_of_slices hr hv,
    fun is e => locate_eq_error_iff haligned, fun ss e => ?_, fun t t' ss x => ?_,
    fun T ss es hT hrank h => h.flatIndices_eq haligned hT hrank⟩
  · rw [element_eq_ok_iff, ← hbuffer]
    refine exists_congr fun es => ?_
    rw [select_element_iff]
    constructor
    · rintro ⟨⟨h, -⟩, rfl⟩
      exact ⟨h, h.length_eq haligned, rfl⟩
    · rintro ⟨h, -, rfl⟩
      exact ⟨⟨h, rfl⟩, rfl⟩
  · rw [Trace.store_eq_ok_iff, ← hbuffer]
    constructor
    · rintro ⟨b, es, hselect, rfl⟩
      obtain ⟨h, rfl⟩ := select_element_iff.1 hselect
      exact ⟨es, h, h.length_eq haligned, rfl⟩
    · rintro ⟨es, h, -, rfl⟩
      exact ⟨v.buffer, es, select_element_iff.2 ⟨h, rfl⟩, rfl⟩

end View

/-- **Views agree with their roots.** Views that are cut out of buffers by any number of slices have
these buffers as their roots. They are over the same storage, keep count at every link, refuse
indices for their number only, and load and store with as many indices as the root has dimensions.
Flattening by the views is flattening by the buffers, as `View.shapes` takes the buffers from the
roots. -/
theorem cut_views_consistent {roots views : List View}
    (h : List.Forall₂ View.CutFrom roots views) :
    views.map View.base = roots ∧ (∀ v ∈ views, v.Consistent) ∧
      ∀ b : Block, b.flattenViews views = b.flattenViews roots := by
  have hbase : views.map View.base = roots := by
    have hforall : List.Forall₂ Eq roots (views.map View.base) :=
      List.forall₂_map_right_iff.2 (h.imp fun r v hv => hv.base_eq.symm)
    rw [List.forall₂_eq_eq_eq] at hforall
    exact hforall.symm
  subst hbase
  have hviews : ∀ v ∈ views, v.base.CutFrom v :=
    List.forall₂_same.1 (List.forall₂_map_left_iff.1 h)
  refine ⟨rfl, fun v hv => (hviews v hv).consistent, fun b => ?_⟩
  rw [Block.flattenViews, Block.flattenViews, View.shapes_base]

/-- As many sheets as there are, each with eight rows of four. -/
def sheetsBuffer : View :=
  .root ⟨0, "a", .float32⟩ [.var ⟨2, "n", .int32⟩, .int 8, .int 4] "global"

/-- A row of six. -/
def rowBuffer : View := .root ⟨1, "t", .int32⟩ [.int 6] "local"

/-- All rows but the first and every second column, of one sheet; then one column of these. -/
def columnChain : List (List Selector) :=
  [[.at (.var ⟨3, "k", .int32⟩), .span (some (.int 1)) none none, .span none none (some (.int 2))],
    [.span none none none, .at (.var ⟨4, "j", .int32⟩)]]

theorem cut_views_consistent_column : ∃ v, sheetsBuffer.slices columnChain = .ok v ∧
    v.cuts.length = 2 ∧ v.rank = 1 ∧ v.storage = "global" ∧
    v.locate [] = .error (.shapeMismatch 1 0) ∧
    (∃ es, v.element [.at (.var ⟨5, "i", .int32⟩)] = .ok (.load ⟨0, "a", .float32⟩ es) ∧
      es.length = 3) ∧
    ∀ b : Block, b.flattenViews [v, rowBuffer] = b.flattenViews [sheetsBuffer, rowBuffer] := by
  obtain ⟨v, hv⟩ : ∃ v, sheetsBuffer.slices columnChain = .ok v := ⟨_, rfl⟩
  have hcut : List.Forall₂ View.CutFrom [sheetsBuffer, rowBuffer] [v, rowBuffer] :=
    .cons ⟨rfl, columnChain, hv⟩ (.cons ⟨rfl, [], rfl⟩ .nil)
  have hrank : v.rank = 1 := by
    obtain rfl := Except.ok.inj hv
    rfl
  obtain ⟨p, hp, hp2⟩ : ∃ p, v.parent? = some p ∧ p.rank = 2 := by
    obtain rfl := Except.ok.inj hv
    exact ⟨_, rfl, rfl⟩
  obtain ⟨e, he⟩ : ∃ e, v.element [.at (.var ⟨5, "i", .int32⟩)] = .ok e := by
    obtain rfl := Except.ok.inj hv
    exact ⟨_, rfl⟩
  obtain ⟨hbases, hviews, hflatten⟩ := cut_views_consistent hcut
  have hbase : v.base = sheetsBuffer := (List.cons.inj hbases).1
  have hconsistent := hviews v List.mem_cons_self
  have hcuts := (hconsistent.linked v v.mem_lineage_self p hp).length_cuts
  obtain ⟨es, -, hlen, rfl⟩ := (hconsistent.element _ _).1 he
  rw [hbase] at he hlen
  refine ⟨v, hv, hcuts.trans hp2, hrank, ?_, ?_, ⟨es, he, hlen⟩, hflatten⟩
  · rw [hconsistent.storage, hbase]
    rfl
  · rw [hconsistent.locate, hrank]
    exact ⟨by decide, rfl⟩

end LoopNest
