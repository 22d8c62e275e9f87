import LoopNest.Block.Flatten
import LoopNest.Proofs.Offsets

/-!
# Flattening preserves a run

The flattened block runs on a memory that holds every element of a buffer with known extents at its
row-major offset, and every other element where it was. The table of shapes is the same throughout a
run of the block as long as no loop and no binding gives new values to the variables of a shape, and
no allocation of a buffer stands inside another one of it.

* `Bounds.place`, `Bounds.Flat`: where elements lie, and memories that differ in this only;
* `Shapes.Fits`: the table describes the bounds that are watched;
* `Block.registered`, `Block.isSteady`, `Block.isUnnested`: the allocations of a block;
* **`Bounds.place_inj`**: no two elements lie at one place;
* **`Expr.eval_flatten`**, **`Block.exec_flatten`**: expressions and blocks under a table that fits;
* **`flatten_preserves_run`**: a block and the table that it is given.
-/

namespace LoopNest

/-! ## Memories -/

namespace Bounds

/-- The elements of a buffer that are kept: those inside its extents, where it has any. -/
def covers (w : Bounds) (v : Var) (c : List Int) : Prop :=
  match w v with
  | .box dims => Layout.Inside dims c
  | _ => True

/-- Where an element lies after flattening. -/
def place (w : Bounds) (v : Var) (c : List Int) : List Int :=
  match w v with
  | .box dims => [Layout.rowMajor dims c]
  | _ => c

/-- The second memory holds every element that is kept of the first, at its place. -/
def Flat {F : Type} (w : Bounds) (μ ν : Memory F) : Prop :=
  ∀ v c, w.covers v c → ν.cell v (w.place v c) = μ.cell v c

variable {w w' : Bounds} {u v : Var} {c d : List Int}

theorem covers_of_admits (h : w.admits v c = true) : w.covers v c := by
  unfold admits at h
  unfold covers
  split <;> simp_all

theorem covers_congr (h : w u = w' u) : w.covers u c ↔ w'.covers u c := by
  rw [covers, covers, h]

theorem place_congr (h : w u = w' u) : w.place u c = w'.place u c := by
  rw [place, place, h]

/-- **No two elements lie at one place.** -/
theorem place_inj (hc : w.covers v c) (hd : w.covers v d) (h : w.place v c = w.place v d) :
    c = d := by
  unfold covers at hc hd
  unfold place at h
  cases hw : w v with
  | free | closed =>
    rw [hw] at h
    exact h
  | box dims =>
    rw [hw] at hc hd h
    exact Layout.rowMajor_inj hc hd (List.cons.inj h).1

theorem enter_of_ne (h : u ≠ v) (dims : List Int) : w.enter v dims u = w u := by
  unfold enter
  split
  · exact if_neg h
  · rfl

theorem enter_of_length {dims : List Int} (h : dims.length < 2) : w.enter v dims = w :=
  if_neg fun h' => by omega

theorem enter_self {dims : List Int} (h : 1 < dims.length) (hv : w v = .closed) :
    w.enter v dims v = .box dims := by
  rw [enter, if_pos ⟨h, by simp [hv]⟩]
  exact if_pos rfl

section

variable {F : Type} {M : Machine F} {μ ν κ : Memory F}

theorem Flat.store (h : w.Flat μ ν) (hc : w.covers v c) (x : Value F) :
    w.Flat (μ.store M v c x) (ν.store M v (w.place v c) x) := by
  intro u d hd
  by_cases hud : u = v ∧ d = c
  · obtain ⟨rfl, rfl⟩ := hud
    rw [Memory.store_self, Memory.store_self]
  · rw [Memory.store_of_ne _ _ hud, Memory.store_of_ne, h u d hd]
    rintro ⟨rfl, hplace⟩
    exact hud ⟨rfl, place_inj hd hc hplace⟩

theorem Flat.clear (h : w.Flat μ ν) (v : Var) (dims : List Int) :
    (w.enter v dims).Flat (μ.clear v) (ν.clear v) := by
  intro u c hc
  rw [Memory.clear, Memory.clear]
  by_cases hu : u = v
  · subst hu
    rw [Memory.restore_self, Memory.restore_self]
    rfl
  · have hw : w.enter v dims u = w u := enter_of_ne hu dims
    rw [Memory.restore_of_ne _ _ hu, Memory.restore_of_ne _ _ hu, place_congr hw]
    exact h u c ((covers_congr hw).1 hc)

theorem Flat.restore {μ' ν' : Memory F} {dims : List Int} (h : (w.enter v dims).Flat μ' ν')
    (h₀ : w.Flat μ ν) : w.Flat (μ'.restore v μ) (ν'.restore v ν) := by
  intro u c hc
  by_cases hu : u = v
  · subst hu
    rw [Memory.restore_self, Memory.restore_self]
    exact h₀ u c hc
  · have hw : w.enter v dims u = w u := enter_of_ne hu dims
    rw [Memory.restore_of_ne _ _ hu, Memory.restore_of_ne _ _ hu, ← place_congr hw]
    exact h u c ((covers_congr hw).2 hc)

end

end Bounds

/-! ## Tables of shapes -/

/-- The expression reads no memory, calls nothing, and has none of the given variables. -/
def Expr.isSteady (e : Expr) (xs : List Var) : Bool := e.isPure && e.vars.all fun v => v ∉ xs

theorem Expr.isSteady_iff {e : Expr} {xs : List Var} :
    e.isSteady xs = true ↔ e.isPure = true ∧ ∀ v ∈ e.vars, v ∉ xs := by
  simp [isSteady]

/-- A table of shapes describes the extents that are watched, in an environment and wherever only
the given variables have other values; and it has no shape of several dimensions for a buffer that
is not watched. -/
structure Shapes.Fits {F : Type} (M : Machine F) (T : Shapes) (w : Bounds) (ρ : Env F)
    (xs : List Var) : Prop where
  box : ∀ v dims, w v = .box dims → ∃ shape, T.find? v = some shape ∧ 1 < shape.length ∧
    (∀ e ∈ shape, e.isUnmixed = true ∧ e.isSteady xs = true) ∧
    List.Forall₂ (Expr.Counts M ρ) shape dims
  free : ∀ v shape, w v = .free → T.find? v = some shape → shape.length < 2

namespace Shapes

theorem find?_cons (v : Var) (shape : List Expr) (T : Shapes) (u : Var) :
    find? ((v, shape) :: T) u = if v = u then some shape else T.find? u := by
  unfold find?
  rw [List.find?_cons]
  by_cases h : v = u <;> simp [h]

variable {F : Type} {M : Machine F} {T T' : Shapes} {w : Bounds} {ρ : Env F} {xs ys : List Var}

theorem Fits.mono (h : T.Fits M w ρ xs) (hys : ∀ v ∈ ys, v ∈ xs) : T.Fits M w ρ ys where
  box v dims hv := by
    obtain ⟨shape, hfind, hlen, hshape, hdims⟩ := h.box v dims hv
    refine ⟨shape, hfind, hlen, fun e he => ⟨(hshape e he).1, ?_⟩, hdims⟩
    obtain ⟨hp, hvars⟩ := Expr.isSteady_iff.1 (hshape e he).2
    exact Expr.isSteady_iff.2 ⟨hp, fun u hu huy => hvars u hu (hys u huy)⟩
  free := h.free

theorem Fits.set (h : T.Fits M w ρ xs) {v : Var} (hv : v ∈ xs) (x : Value F) :
    T.Fits M w (ρ.set M v x) xs where
  box u dims hu := by
    obtain ⟨shape, hfind, hlen, hshape, hdims⟩ := h.box u dims hu
    refine ⟨shape, hfind, hlen, hshape, ?_⟩
    refine ((List.forall₂_and_left _ _).2 ⟨fun e he => he, hdims⟩).imp ?_
    rintro e n ⟨he, hn⟩
    obtain ⟨hp, hvars⟩ := Expr.isSteady_iff.1 (hshape e he).2
    refine Expr.counts_of_isPure hp (fun y hy => ?_) (hn .unchecked .empty [])
    exact (ρ.set_of_ne M (fun hyv : y = v => hvars y hy (hyv ▸ hv)) x).symm
  free := h.free

theorem Fits.of_find? (h : T.Fits M w ρ xs) (hT : ∀ v, w v ≠ .closed → T'.find? v = T.find? v) :
    T'.Fits M w ρ xs where
  box v dims hv := by
    rw [hT v (by simp [hv])]
    exact h.box v dims hv
  free v shape hv hfind := by
    rw [hT v (by simp [hv])] at hfind
    exact h.free v shape hv hfind

/-- An allocation of several dimensions. -/
theorem Fits.enter (h : T.Fits M w ρ xs) {v : Var} {shape : List Expr} {dims : List Int}
    (hlen : 1 < shape.length) (hv : w v = .closed)
    (hshape : ∀ e ∈ shape, e.isUnmixed = true ∧ e.isSteady xs = true)
    (hdims : List.Forall₂ (Expr.Counts M ρ) shape dims) :
    Fits M (Block.addShape v shape T) (w.enter v dims) ρ xs := by
  rw [Block.addShape, if_pos hlen]
  constructor
  · intro u ds hu
    rw [find?_cons]
    split
    · next huv =>
      subst huv
      rw [Bounds.enter_self (hdims.length_eq ▸ hlen) hv] at hu
      obtain rfl := Bound.box.inj hu
      exact ⟨shape, rfl, hlen, hshape, hdims⟩
    · next huv =>
      rw [Bounds.enter_of_ne (Ne.symm huv)] at hu
      exact h.box u ds hu
  · intro u ss hu hfind
    rw [find?_cons] at hfind
    split at hfind
    · next huv =>
      subst huv
      rw [Bounds.enter_self (hdims.length_eq ▸ hlen) hv] at hu
      exact nomatch hu
    · next huv =>
      rw [Bounds.enter_of_ne (Ne.symm huv)] at hu
      exact h.free u ss hu hfind

end Shapes

/-! ## Expressions -/

section

variable {F : Type} {M : Machine F} {T : Shapes} {w : Bounds} {ρ : Env F} {xs : List Var}
  {μ ν : Memory F} {log log' : Log F}

namespace Expr

@[simp] theorem flatten_binary (T : Shapes) (op : Operator) (a b : Expr) :
    (binary op a b).flatten T = binary op (a.flatten T) (b.flatten T) := rfl

@[simp] theorem flatten_cast (T : Shapes) (t : ElemType) (a : Expr) :
    (cast t a).flatten T = cast t (a.flatten T) := rfl

@[simp] theorem flatten_load (T : Shapes) (v : Var) (is : List Expr) :
    (load v is).flatten T = load v (T.flatIndices v (is.map (flatten T))) := by
  rw [flatten, bottomUp, bottomUpAll_eq_map]
  rfl

@[simp] theorem flatten_call (T : Shapes) (t : ElemType) (f : String) (as : List Expr) :
    (call t f as).flatten T = call t f (as.map (flatten T)) := by
  rw [flatten, bottomUp, bottomUpAll_eq_map]
  rfl

/-- Flattening keeps the class of an expression. -/
theorem sameClass_flatten (T : Shapes) (e : Expr) : SameClass e (e.flatten T) := by
  induction e using inductionOn with
  | int _ | float _ | str _ | var _ => exact .refl _
  | binary op a b iha _ =>
    refine ⟨?_, ?_, rfl⟩
    · rw [flatten_binary, type, type]
      split
      · rfl
      · exact iha.int
    · rw [flatten_binary, type, type]
      split
      · rfl
      · exact iha.float
  | cast t a _ => exact ⟨rfl, rfl, rfl⟩
  | load v is _ =>
    rw [flatten_load]
    exact ⟨rfl, rfl, rfl⟩
  | call t f as _ =>
    rw [flatten_call]
    exact ⟨rfl, rfl, rfl⟩

/-- What flattening must do to an expression that is evaluated under watch: it has the same value
and the same calls on the flat memory, and its operands stay unmixed. -/
def Flattens (M : Machine F) (T : Shapes) (w : Bounds) (ρ : Env F) (μ ν : Memory F) (e : Expr) :
    Prop :=
  ∀ log x log', e.eval M w ρ μ log = some (x, log') →
    (e.flatten T).eval M .unchecked ρ ν log = some (x, log') ∧ (e.flatten T).isUnmixed = true

theorem evalAll_flatten {es : List Expr} (hes : ∀ e ∈ es, Flattens M T w ρ μ ν e)
    {zs : List (Value F)} (h : evalAll M w ρ μ es log = some (zs, log')) :
    evalAll M .unchecked ρ ν (es.map (flatten T)) log = some (zs, log') ∧
      ∀ e ∈ es.map (flatten T), e.isUnmixed = true := by
  induction es generalizing log zs with
  | nil => exact ⟨h, by simp⟩
  | cons e es ih =>
    obtain ⟨x, l, ys, hx, hys, rfl⟩ := evalAll_cons_iff.1 h
    obtain ⟨he, hes⟩ := List.forall_mem_cons.1 hes
    obtain ⟨hx, hue⟩ := he log x l hx
    obtain ⟨hys, hues⟩ := ih hes hys
    exact ⟨evalAll_cons_iff.2 ⟨x, l, ys, hx, hys, rfl⟩, List.forall_mem_cons.2 ⟨hue, hues⟩⟩

theorem numbers_flatten {es : List Expr} (hes : ∀ e ∈ es, Flattens M T w ρ μ ν e) {c : List Int}
    (h : numbers M w ρ μ es log = some (c, log')) :
    numbers M .unchecked ρ ν (es.map (flatten T)) log = some (c, log') ∧
      ∀ e ∈ es.map (flatten T), e.isUnmixed = true := by
  obtain ⟨zs, hzs, hc⟩ := numbers_iff.1 h
  obtain ⟨hzs, hu⟩ := evalAll_flatten hes hzs
  exact ⟨numbers_iff.2 ⟨zs, hzs, hc⟩, hu⟩

end Expr

variable [M.Typed]

/-- The flat indices of an access that is allowed give the place of its element. -/
theorem Shapes.Fits.numbers_flatIndices (hT : T.Fits M w ρ xs) {v : Var} {is : List Expr}
    {c : List Int} (hu : ∀ e ∈ is, e.isUnmixed = true) (hv : w.admits v c = true) {w' : Bounds}
    (hc : Expr.numbers M w' ρ ν is log = some (c, log')) :
    Expr.numbers M w' ρ ν (T.flatIndices v is) log = some (w.place v c, log') ∧
      ∀ e ∈ T.flatIndices v is, e.isUnmixed = true := by
  have hlen : is.length = c.length := (Expr.length_numbers hc).symm
  cases hw : w v with
  | free =>
    have hplace : w.place v c = c := by rw [Bounds.place, hw]
    have hsame : T.flatIndices v is = is := by
      unfold Shapes.flatIndices
      split
      · rfl
      · next h2 =>
        split
        · next shape hfind =>
          have hshape := hT.free v shape hw hfind
          exact if_neg (by omega)
        · rfl
    rw [hplace, hsame]
    exact ⟨hc, hu⟩
  | closed =>
    have hplace : w.place v c = c := by rw [Bounds.place, hw]
    have hshort : c.length < 2 := by simpa [Bounds.admits, hw] using hv
    have hsame : T.flatIndices v is = is := if_pos (hlen.trans_lt hshort)
    rw [hplace, hsame]
    exact ⟨hc, hu⟩
  | box dims =>
    have hplace : w.place v c = [Layout.rowMajor dims c] := by rw [Bounds.place, hw]
    have hin : Layout.Inside dims c := by simpa [Bounds.admits, hw] using hv
    obtain ⟨shape, hfind, hrank, hshape, hdims⟩ := hT.box v dims hw
    have hshapeLen : shape.length = is.length := by rw [hdims.length_eq, hin.length_eq, hlen]
    have hflat : T.flatIndices v is = [Layout.offset is shape] := by
      rw [Shapes.flatIndices, if_neg (by omega), hfind]
      exact if_pos hshapeLen
    obtain ⟨huo, ho⟩ := Layout.number_offset hdims (fun e he => (hshape e he).1) hshapeLen.symm
      hu hc
    rw [hplace, hflat]
    exact ⟨Expr.numbers_cons_iff.2 ⟨_, log', [], ho, rfl, rfl⟩, List.forall_mem_singleton.2 huo⟩

namespace Expr

/-- **A flattened expression has the value and the calls of the expression.** -/
theorem eval_flatten (hT : T.Fits M w ρ xs) (hμ : w.Flat μ ν) {e : Expr}
    (he : e.isUnmixed = true) : Flattens M T w ρ μ ν e := by
  induction e using inductionOn with
  | int _ | float _ | str _ | var _ => exact fun log x log' h => ⟨h, rfl⟩
  | binary op a b iha ihb =>
    intro log z log' h
    obtain ⟨hua, hub, hta, htb, hclass⟩ := isUnmixed_binary_iff.1 he
    obtain ⟨x, l, y, hx, hy, hz⟩ := eval_binary_iff.1 h
    obtain ⟨hx, hua⟩ := iha hua log x l hx
    obtain ⟨hy, hub⟩ := ihb hub l y log' hy
    have hca := sameClass_flatten T a
    have hcb := sameClass_flatten T b
    refine ⟨eval_binary_iff.2 ⟨x, l, y, hx, hy, hz⟩, isUnmixed_binary_iff.2 ⟨hua, hub, ?_⟩⟩
    exact ⟨hca.text.trans hta, hcb.text.trans htb, hca.float.trans (hclass.trans hcb.float.symm)⟩
  | cast t a iha =>
    intro log z log' h
    obtain ⟨x, hx, hz⟩ := eval_cast_iff.1 h
    obtain ⟨hx, hu⟩ := iha he log x log' hx
    exact ⟨eval_cast_iff.2 ⟨x, hx, hz⟩, hu⟩
  | load v is ih =>
    intro log z log' h
    rw [isUnmixed_load_iff] at he
    obtain ⟨c, hc, hw, hz⟩ := eval_load_iff.1 h
    obtain ⟨hc, hu⟩ := numbers_flatten (fun e hi => ih e hi (he e hi)) hc
    obtain ⟨hc, hu⟩ := hT.numbers_flatIndices hu hw hc
    rw [flatten_load]
    refine ⟨eval_load_iff.2 ⟨w.place v c, hc, rfl, ?_⟩, isUnmixed_load_iff.2 hu⟩
    rw [hμ v c (Bounds.covers_of_admits hw), hz]
  | call t f as ih =>
    intro log z log' h
    rw [isUnmixed_call_iff] at he
    obtain ⟨zs, l, hzs, hz, hl⟩ := eval_call_iff.1 h
    obtain ⟨hzs, hu⟩ := evalAll_flatten (fun e ha => ih e ha (he e ha)) hzs
    rw [flatten_call]
    exact ⟨eval_call_iff.2 ⟨zs, l, hzs, hz, hl⟩, isUnmixed_call_iff.2 hu⟩

end Expr

end

/-! ## Blocks -/

namespace Block

/-- The buffers that a block allocates with several dimensions. -/
def registered : Block → List Var
  | seq a b => a.registered ++ b.registered
  | loop _ _ body => body.registered
  | alloc v shape _ body => if 1 < shape.length then v :: body.registered else body.registered
  | bind _ body => body.registered
  | eval _ | store _ _ _ => []

/-- The shape of an allocation of several dimensions means the same throughout its body. -/
def isSteady : Block → Bool
  | seq a b => a.isSteady && b.isSteady
  | loop _ _ body => body.isSteady
  | alloc _ shape _ body =>
    (shape.length < 2 || shape.all fun e => e.isSteady body.binders) && body.isSteady
  | bind _ body => body.isSteady
  | eval _ | store _ _ _ => true

/-- No allocation of several dimensions stands inside one of the same buffer. -/
def isUnnested : Block → Bool
  | seq a b => a.isUnnested && b.isUnnested
  | loop _ _ body => body.isUnnested
  | alloc v shape _ body =>
    (shape.length < 2 || decide (v ∉ body.registered)) && body.isUnnested
  | bind _ body => body.isUnnested
  | eval _ | store _ _ _ => true

theorem find?_declare {b : Block} {v : Var} (hv : v ∉ b.registered) (T : Shapes) :
    (b.declare T).find? v = T.find? v := by
  induction b generalizing T with
  | seq a b iha ihb =>
    simp only [registered, List.mem_append, not_or] at hv
    rw [declare, ihb hv.2, iha hv.1]
  | loop k i body ih => exact ih hv T
  | alloc u shape storage body ih =>
    rw [registered] at hv
    rw [declare, addShape]
    split
    · next hlen =>
      rw [if_pos hlen, List.mem_cons, not_or] at hv
      rw [ih hv.2, Shapes.find?_cons, if_neg (Ne.symm hv.1)]
    · next hlen =>
      rw [if_neg hlen] at hv
      exact ih hv T
  | bind bs body ih => exact ih hv T
  | eval _ | store _ _ _ => rfl

end Block

section

variable {F : Type} {M : Machine F}

/-- Flat memories, after the same calls. -/
structure Bounds.FlatState (w : Bounds) (s t : State F) : Prop where
  memory : w.Flat s.memory t.memory
  log : t.log = s.log

theorem Bounds.FlatState.start (w : Bounds) : w.FlatState (State.start : State F) .start :=
  ⟨fun _ _ _ => rfl, rfl⟩

variable {T : Shapes} {w : Bounds} {ρ τ : Env F} {xs : List Var} {log log' : Log F}

variable [M.Typed]

theorem Range.points_flatten {μ ν : Memory F} (hT : T.Fits M w ρ xs) (hμ : w.Flat μ ν)
    {r : Range} (hf : r.first.isUnmixed = true) (he : r.extent.isUnmixed = true)
    (hs : r.step.isUnmixed = true) :
    Refines (r.points M w ρ μ) ((r.mapExprs (Expr.flatten T)).points M .unchecked ρ ν) :=
  Refines.points (fun log _ h => (Expr.eval_flatten hT hμ hf log _ _ h).1)
    (fun log _ h => (Expr.eval_flatten hT hμ he log _ _ h).1)
    (fun log _ h => (Expr.eval_flatten hT hμ hs log _ _ h).1)

namespace Block

theorem bindAll_flatten {μ ν : Memory F} (hT : T.Fits M w ρ xs) (hμ : w.Flat μ ν)
    {bs : List Binding} (hbs : ∀ b ∈ bs, b.var ∈ xs) (hu : ∀ b ∈ bs, b.value.isUnmixed = true)
    (h : bindAll M w μ bs ρ log = some (τ, log')) :
    bindAll M .unchecked ν (bs.map fun b => { b with value := b.value.flatten T }) ρ log =
        some (τ, log') ∧ T.Fits M w τ xs := by
  induction bs generalizing ρ log with
  | nil =>
    obtain ⟨rfl, rfl⟩ := Prod.mk.inj (Option.some.inj h)
    exact ⟨rfl, hT⟩
  | cons b bs ih =>
    obtain ⟨hb, hbs⟩ := List.forall_mem_cons.1 hbs
    obtain ⟨hub, hu⟩ := List.forall_mem_cons.1 hu
    obtain ⟨x, l, hx, h⟩ := bindAll_cons_iff.1 h
    obtain ⟨hx, -⟩ := Expr.eval_flatten hT hμ hub log x l hx
    obtain ⟨h, hfits⟩ := ih (hT.set hb x) hbs hu h
    exact ⟨bindAll_cons_iff.2 ⟨x, l, hx, h⟩, hfits⟩

/-- The shape of an allocation as the flattened allocation has it, and the table and the bounds of
its body. -/
theorem shape_flatten {μ ν : Memory F} {v : Var} {shape : List Expr} {storage : String}
    {body : Block} {dims : List Int} (hT : T.Fits M w ρ body.binders) (hμ : w.Flat μ ν)
    (hu : ∀ e ∈ shape, e.isUnmixed = true)
    (hs : (shape.length < 2 || shape.all fun e => e.isSteady body.binders) = true)
    (hn : (shape.length < 2 || decide (v ∉ body.registered)) = true)
    (hw : ∀ u ∈ (alloc v shape storage body).registered, w u = .closed)
    (hd : Expr.numbers M w ρ μ shape log = some (dims, log')) : ∃ dims',
      Expr.numbers M .unchecked ρ ν
        (if 1 < shape.length then [Layout.count shape] else shape.map (Expr.flatten T)) log =
          some (dims', log') ∧
      (addShape v shape T).Fits M (w.enter v dims) ρ body.binders ∧
      ∀ u ∈ body.registered, w.enter v dims u = .closed := by
  have hlen : dims.length = shape.length := Expr.length_numbers hd
  by_cases hrank : 1 < shape.length
  · have hsteady : ∀ e ∈ shape, e.isSteady body.binders = true := by
      simpa [not_lt.2 (Nat.succ_le_of_lt hrank)] using hs
    have hsep : v ∉ body.registered := by simpa [not_lt.2 (Nat.succ_le_of_lt hrank)] using hn
    rw [registered, if_pos hrank] at hw
    obtain ⟨hv, hw⟩ := List.forall_mem_cons.1 hw
    obtain ⟨hcounts, rfl⟩ := Expr.counts_of_numbers
      (fun e he => (Expr.isSteady_iff.1 (hsteady e he)).1) hd
    rw [if_pos hrank]
    refine ⟨[dims.prod], Expr.numbers_cons_iff.2 ⟨_, _, [], Layout.number_count hcounts hu, rfl,
      rfl⟩, hT.enter hrank hv (fun e he => ⟨hu e he, hsteady e he⟩) hcounts, fun u hub => ?_⟩
    rw [Bounds.enter_of_ne (fun huv : u = v => hsep (huv ▸ hub))]
    exact hw u hub
  · rw [registered, if_neg hrank] at hw
    rw [if_neg hrank, addShape, if_neg hrank, Bounds.enter_of_length (by omega)]
    have hnum := Expr.numbers_flatten (fun e he => Expr.eval_flatten hT hμ (hu e he)) hd
    exact ⟨dims, hnum.1, hT, hw⟩

/-- **A flattened block leaves the flat state** of what the block leaves, where the table fits the
bounds that are watched and no buffer that the block registers has any yet. -/
theorem exec_flatten {b : Block} (hu : ∀ e ∈ b.exprs, e.isUnmixed = true)
    (hs : b.isSteady = true) (hn : b.isUnnested = true) {s s' t : State F}
    (hT : T.Fits M w ρ b.binders) (hw : ∀ v ∈ b.registered, w v = .closed)
    (h : b.exec M w ρ s = some s') (ht : w.FlatState s t) :
    ∃ t', (b.flatten T).exec M .unchecked ρ t = some t' ∧ w.FlatState s' t' := by
  induction b generalizing T w ρ s s' t with
  | seq a b iha ihb =>
    simp only [exprs, List.mem_append] at hu
    simp only [isSteady, Bool.and_eq_true] at hs
    simp only [isUnnested, Bool.and_eq_true] at hn
    simp only [registered, List.mem_append] at hw
    obtain ⟨s₁, ha, hb⟩ := exec_seq_iff.1 h
    have hTa : T.Fits M w ρ a.binders := hT.mono fun v hv => List.mem_append_left _ hv
    have hTb : T.Fits M w ρ b.binders := hT.mono fun v hv => List.mem_append_right _ hv
    -- what `a` declares are buffers without bounds
    have hTb : (a.declare T).Fits M w ρ b.binders := hTb.of_find? fun v hv =>
      find?_declare (fun hva => hv (hw v (.inl hva))) T
    obtain ⟨t₁, hta, ht₁⟩ := iha (fun e he => hu e (.inl he)) hs.1 hn.1 hTa
      (fun v hv => hw v (.inl hv)) ha ht
    obtain ⟨t', htb, ht'⟩ := ihb (fun e he => hu e (.inr he)) hs.2 hn.2 hTb
      (fun v hv => hw v (.inr hv)) hb ht₁
    exact ⟨t', exec_seq_iff.2 ⟨t₁, hta, htb⟩, ht'⟩
  | loop k i body ih =>
    simp only [exprs, List.mem_cons, forall_eq_or_imp] at hu
    obtain ⟨hf, he, hst, hu⟩ := hu
    obtain ⟨ns, log, hns, hint, h⟩ := exec_loop_iff.1 h
    have hpoints := Range.points_flatten hT ht.memory hf he hst _ _ hns
    have hstate : w.FlatState ⟨s.memory, log⟩ ⟨t.memory, log⟩ := ⟨ht.memory, rfl⟩
    have hTbody : ∀ n : Int, T.Fits M w (ρ.set M i.var (.int n)) body.binders := fun n =>
      (hT.set List.mem_cons_self (.int n)).mono fun v hv => List.mem_cons_of_mem _ hv
    obtain ⟨t', ht', hrel⟩ := foldlM_related (forall₂_eq ns) (fun n m hnm s₁ t₁ s₂ hst₁ hs₂ => by
      subst hnm
      exact ih hu hs hn (hTbody n) hw hs₂ hst₁) hstate h
    rw [← ht.log] at hpoints
    exact ⟨t', exec_loop_iff.2 ⟨ns, log, hpoints, hint, ht'⟩, hrel⟩
  | alloc v shape storage body ih =>
    simp only [exprs, List.mem_append] at hu
    simp only [isSteady, Bool.and_eq_true] at hs
    simp only [isUnnested, Bool.and_eq_true] at hn
    obtain ⟨dims, log, s₁, hd, hbody, rfl⟩ := exec_alloc_iff.1 h
    have hT : T.Fits M w ρ body.binders := hT
    obtain ⟨dims', hd', hT', hw'⟩ :=
      shape_flatten hT ht.memory (fun e he => hu e (.inl he)) hs.1 hn.1 hw hd
    rw [← ht.log] at hd'
    have hclear : (w.enter v dims).FlatState ⟨s.memory.clear v, log⟩ ⟨t.memory.clear v, log⟩ :=
      ⟨ht.memory.clear v dims, rfl⟩
    obtain ⟨t₁, ht₁, hrel⟩ := ih (fun e he => hu e (.inr he)) hs.2 hn.2 hT' hw' hbody hclear
    refine ⟨⟨t₁.memory.restore v t.memory, t₁.log⟩, exec_alloc_iff.2 ⟨dims', log, t₁, hd', ?_, rfl⟩,
      hrel.memory.restore ht.memory, hrel.log⟩
    rw [Bounds.enter_unchecked]
    exact ht₁
  | bind bs body ih =>
    simp only [exprs, List.mem_append, List.mem_map] at hu
    obtain ⟨τ, log, hbs, h⟩ := exec_bind_iff.1 h
    obtain ⟨hbs, hTτ⟩ := bindAll_flatten hT ht.memory
      (fun b hb => List.mem_append_left _ (List.mem_map_of_mem hb))
      (fun b hb => hu _ (.inl ⟨b, hb, rfl⟩)) hbs
    have hstate : w.FlatState ⟨s.memory, log⟩ ⟨t.memory, log⟩ := ⟨ht.memory, rfl⟩
    obtain ⟨t', ht', hrel⟩ := ih (fun e he => hu e (.inr he)) hs hn
      (hTτ.mono fun v hv => List.mem_append_right _ hv) hw h hstate
    rw [← ht.log] at hbs
    exact ⟨t', exec_bind_iff.2 ⟨τ, log, hbs, ht'⟩, hrel⟩
  | eval e =>
    obtain ⟨x, log, hx, rfl⟩ := exec_eval_iff.1 h
    obtain ⟨hx, -⟩ := Expr.eval_flatten hT ht.memory (hu e (by simp [exprs])) s.log x log hx
    rw [← ht.log] at hx
    exact ⟨⟨t.memory, log⟩, exec_eval_iff.2 ⟨x, log, hx, rfl⟩, ht.memory, rfl⟩
  | store v is e =>
    simp only [exprs, List.mem_append, List.mem_singleton] at hu
    obtain ⟨c, l, x, log, hc, hx, hadm, rfl⟩ := exec_store_iff.1 h
    obtain ⟨hc, hui⟩ := Expr.numbers_flatten
      (fun e he => Expr.eval_flatten hT ht.memory (hu e (.inl he))) hc
    obtain ⟨hc, -⟩ := hT.numbers_flatIndices hui hadm hc
    obtain ⟨hx, -⟩ := Expr.eval_flatten hT ht.memory (hu e (.inr rfl)) l x log hx
    rw [← ht.log] at hc
    exact ⟨⟨t.memory.store M v (w.place v c) x, log⟩,
      exec_store_iff.2 ⟨_, l, x, log, hc, hx, rfl, rfl⟩,
      ht.memory.store (Bounds.covers_of_admits hadm) x, rfl⟩

end Block

end

/-! ## The table of a block -/

/-- What is watched of a block under a table: buffers of several dimensions have the extents of
their shapes in an environment, and those that the block allocates have none before. -/
def Shapes.bounds {F : Type} (M : Machine F) (ρ : Env F) (T : Shapes) (b : Block) : Bounds :=
  fun v =>
    match T.find? v with
    | some shape =>
      if shape.length < 2 then .free
      else
        match Expr.numbers M .unchecked ρ .empty shape [] with
        | some (dims, _) => .box dims
        | none => .closed
    | none => if v ∈ b.registered then .closed else .free

section

variable {F : Type} {M : Machine F} {T : Shapes} {b : Block}

theorem Shapes.mem_of_find? {v : Var} {shape : List Expr} (h : T.find? v = some shape) :
    (v, shape) ∈ T := by
  obtain ⟨⟨u, ss⟩, hfind, rfl⟩ := Option.map_eq_some_iff.1 h
  obtain rfl : u = v := by simpa using List.find?_some hfind
  exact List.mem_of_find?_eq_some hfind

theorem Shapes.fits_bounds
    (hT : ∀ p ∈ T, ∀ e ∈ p.2, e.isUnmixed = true ∧ e.isSteady b.binders = true) (ρ : Env F) :
    T.Fits M (T.bounds M ρ b) ρ b.binders := by
  constructor
  · intro v dims hv
    unfold bounds at hv
    cases hfind : T.find? v with
    | none =>
      simp only [hfind] at hv
      split at hv <;> exact nomatch hv
    | some shape =>
      have hshape := hT (v, shape) (mem_of_find? hfind)
      simp only [hfind] at hv
      split at hv
      · exact nomatch hv
      · next hlen =>
        split at hv
        · next ds log hds =>
          obtain rfl := Bound.box.inj hv
          have hpure : ∀ e ∈ shape, e.isPure = true := fun e he =>
            (Expr.isSteady_iff.1 (hshape e he).2).1
          exact ⟨shape, rfl, by omega, hshape, (Expr.counts_of_numbers hpure hds).1⟩
        · exact nomatch hv
  · intro v shape hv hfind
    unfold bounds at hv
    simp only [hfind] at hv
    split at hv
    · assumption
    · split at hv <;> exact nomatch hv

theorem Shapes.bounds_of_registered (hd : ∀ p ∈ T, p.1 ∉ b.registered) (ρ : Env F) :
    ∀ v ∈ b.registered, T.bounds M ρ b v = .closed := by
  intro v hv
  unfold bounds
  cases hfind : T.find? v with
  | none => exact if_pos hv
  | some shape => exact absurd hv (hd (v, shape) (mem_of_find? hfind))

/-- **Flattening preserves a run.** The shapes of the table and of the allocations read no memory,
call nothing and mean the same throughout what they govern; no buffer is both in the table and
allocated, and none is allocated inside an allocation of it; and every access of the run to a buffer
of several dimensions has as many indices and lies inside. Then the flattened block runs as well,
from every memory that holds the same elements at their row-major offsets, with the same calls, and
leaves such a memory. -/
theorem flatten_preserves_run (M : Machine F) [M.Typed]
    (hT : ∀ p ∈ T, ∀ e ∈ p.2, e.isUnmixed = true ∧ e.isSteady b.binders = true)
    (hd : ∀ p ∈ T, p.1 ∉ b.registered) (hu : b.isUnmixed = true) (hs : b.isSteady = true)
    (hn : b.isUnnested = true) {ρ : Env F} {s s' t : State F} (h : b.run M ρ s = some s')
    (hin : (b.exec M (T.bounds M ρ b) ρ s).isSome = true)
    (ht : (T.bounds M ρ b).FlatState s t) :
    ∃ t', (b.flatten T).run M ρ t = some t' ∧ (T.bounds M ρ b).FlatState s' t' := by
  obtain ⟨s₁, hs₁⟩ := Option.isSome_iff_exists.1 hin
  obtain rfl : s₁ = s' := Option.some.inj ((Block.exec_unchecked hs₁).symm.trans h)
  rw [Block.isUnmixed, List.all_eq_true] at hu
  exact Block.exec_flatten hu hs hn (Shapes.fits_bounds hT ρ) (Shapes.bounds_of_registered hd ρ)
    hs₁ ht

end

/-- A table of `n` rows is filled by calls. One element is then stored under an index that is itself
loaded, in a buffer that was allocated, and copied back. -/
def gatherBlock : Block :=
  let n : Var := ⟨0, "n", .int32⟩
  let a : Var := ⟨1, "a", .int32⟩
  let i : Var := ⟨2, "i", .int32⟩
  let j : Var := ⟨3, "j", .int32⟩
  let p : Var := ⟨4, "p", .int32⟩
  .seq
    (.loop .spatial ⟨i, ⟨.int 0, n, .int 1⟩, ""⟩
      (.loop .spatial ⟨j, ⟨.int 0, .int 3, .int 1⟩, ""⟩ (.store a [i, j] (.call .int32 "tick" []))))
    (.alloc p [.int 3, n] "local"
      (.seq (.store p [.load a [.int 0, .int 2], .int 1] (.load a [.int 1, .int 0]))
        (.store a [.int 0, .int 0] (.load p [.int 2, .int 1]))))

/-- The shape of the table that is filled. -/
def gatherShapes : Shapes := [(⟨1, "a", .int32⟩, [.var ⟨0, "n", .int32⟩, .int 3])]

/-- Two rows. -/
def gatherEnv : Env Int := Env.zero.set .counting ⟨0, "n", .int32⟩ (.int 2)

theorem flatten_preserves_run_gather : ∃ s' t',
    gatherBlock.run .counting gatherEnv .start = some s' ∧
    (gatherBlock.flatten gatherShapes).run .counting gatherEnv .start = some t' ∧
    t'.log = s'.log ∧ s'.log.length = 6 ∧
    (t'.memory.cell ⟨1, "a", .int32⟩ [0]).bind Value.whole? = some 3 := by
  have hrun : (gatherBlock.run .counting gatherEnv .start).map (fun s => (s.log.length,
      (s.memory.cell ⟨1, "a", .int32⟩ [0, 0]).bind Value.whole?)) = some (6, some 3) := by
    decide +kernel
  have hin : (gatherBlock.exec .counting (gatherShapes.bounds .counting gatherEnv gatherBlock)
      gatherEnv .start).isSome = true := by
    decide +kernel
  have hbox : gatherShapes.bounds .counting gatherEnv gatherBlock ⟨1, "a", .int32⟩ =
      .box [2, 3] := by
    decide +kernel
  obtain ⟨s', hs', hval⟩ := Option.map_eq_some_iff.1 hrun
  obtain ⟨hlen, hval⟩ := Prod.mk.inj hval
  obtain ⟨t', ht', hflat⟩ := flatten_preserves_run .counting (by decide) (by decide) (by decide)
    (by decide) (by decide) hs' hin (.start _)
  refine ⟨s', t', hs', ht', hflat.log, hlen, ?_⟩
  have hcell := hflat.memory ⟨1, "a", .int32⟩ [0, 0] (by rw [Bounds.covers, hbox]; decide)
  rw [Bounds.place, hbox] at hcell
  exact hcell ▸ hval

/-- A buffer of two rows of nine, inside which the same buffer is allocated with two rows of two. -/
def nestedAlloc : Block :=
  let v : Var := ⟨0, "v", .int32⟩
  .alloc v [.int 2, .int 9] "local"
    (.seq (.store v [.int 1, .int 1] (.int 1))
      (.seq (.store v [.int 0, .int 3] (.int 2))
        (.seq (.alloc v [.int 2, .int 2] "local" .nop)
          (.store ⟨1, "w", .int32⟩ [.int 0] (.load v [.int 1, .int 1])))))

/-- **Inside another allocation of its buffer an allocation is not harmless**: its shape is still in
the table when the outer buffer is accessed again, and a wrong element is read. -/
theorem flatten_nestedAlloc : nestedAlloc.isUnmixed = true ∧ nestedAlloc.isSteady = true ∧
    ∃ s' t', nestedAlloc.run .counting .zero .start = some s' ∧
      nestedAlloc.exec .counting (Shapes.bounds .counting .zero [] nestedAlloc) .zero
        .start = some s' ∧
      (nestedAlloc.flatten []).run .counting .zero .start = some t' ∧
      (s'.memory.cell ⟨1, "w", .int32⟩ [0]).bind Value.whole? = some 1 ∧
      (t'.memory.cell ⟨1, "w", .int32⟩ [0]).bind Value.whole? = some 2 := by
  have hrun : (nestedAlloc.exec .counting (Shapes.bounds .counting .zero [] nestedAlloc) .zero
      .start).map (fun s => (s.memory.cell ⟨1, "w", .int32⟩ [0]).bind Value.whole?) =
        some (some 1) := by
    decide +kernel
  have hflat : ((nestedAlloc.flatten []).run .counting .zero .start).map
      (fun t => (t.memory.cell ⟨1, "w", .int32⟩ [0]).bind Value.whole?) = some (some 2) := by
    decide +kernel
  obtain ⟨s', hs', hs⟩ := Option.map_eq_some_iff.1 hrun
  obtain ⟨t', ht', ht⟩ := Option.map_eq_some_iff.1 hflat
  exact ⟨by decide, by decide, s', t', Block.exec_unchecked hs', hs', ht', hs, ht⟩

end LoopNest
