import LoopNest.Kernel.Artifact
import LoopNest.Proofs.JsonGrammar
import LoopNest.Proofs.PrintedBlocks

/-!
# Kernels read back from their artifacts

An artifact shows everything of its kernel: the numbers, names and types of variables, the shape of
the tree and the source. Only a floating-point literal that is not finite is lost, since it has no
number in JSON.

* `Kernel.floats`, `Binary64.isFinite`: the floating-point literals of a kernel;
* **`Kernel.read?_artifact`**: an artifact is read back as the JSON value of its kernel;
* `Expr.eq_of_toJson_eq`, `Block.eq_of_toJson_eq`, `Kernel.eq_of_toJson_eq`: JSON values of
  different trees differ;
* **`Kernel.artifact_inj`**: different kernels have different artifacts.
-/

namespace LoopNest

/-! ## Floating-point literals -/

/-- Neither NaN nor an infinity. -/
def Binary64.isFinite (x : Binary64) : Bool := !(x.isNaN || x.isInfinite)

/-- All of the numbers are finite. -/
def AllFinite (xs : List Binary64) : Prop := ∀ x ∈ xs, x.isFinite = true

instance (xs : List Binary64) : Decidable (AllFinite xs) :=
  inferInstanceAs (Decidable (∀ x ∈ xs, x.isFinite = true))

theorem allFinite_append {xs ys : List Binary64} :
    AllFinite (xs ++ ys) ↔ AllFinite xs ∧ AllFinite ys := List.forall_mem_append

namespace Expr

mutual

/-- The floating-point literals of an expression. -/
def floats : Expr → List Binary64
  | int _ | str _ | var _ => []
  | float x => [x]
  | binary _ a b => a.floats ++ b.floats
  | cast _ a => a.floats
  | load _ is => floatsAll is
  | call _ _ as => floatsAll as

/-- The floating-point literals of expressions. -/
def floatsAll : List Expr → List Binary64
  | [] => []
  | e :: es => e.floats ++ floatsAll es

end

theorem finite_of_floatsAll {es : List Expr} (h : AllFinite (floatsAll es)) :
    ∀ e ∈ es, AllFinite e.floats := by
  induction es with
  | nil => exact List.forall_mem_nil _
  | cons e es ih =>
    obtain ⟨he, hes⟩ := allFinite_append.1 h
    exact List.forall_mem_cons.2 ⟨he, ih hes⟩

end Expr

/-- The floating-point literals of a block. -/
def Block.floats : Block → List Binary64
  | seq a b => a.floats ++ b.floats
  | loop _ i body => Expr.floatsAll i.range.parts ++ body.floats
  | alloc _ shape _ body => Expr.floatsAll shape ++ body.floats
  | bind bs body => Expr.floatsAll (bs.map Binding.value) ++ body.floats
  | eval e => e.floats
  | store _ is e => Expr.floatsAll is ++ e.floats

/-- The floating-point literals of a kernel, in the shapes of buffers and in the body. -/
def Kernel.floats (k : Kernel) : List Binary64 :=
  (k.signature.buffers.flatMap fun b => Expr.floatsAll b.shape) ++ k.body.floats

/-! ## Artifacts are read -/

/-- A finite number is spelled as one. -/
@[simp] theorem Binary64.spelled_toJson (x : Binary64) : x.toJson.Spelled := by
  unfold toJson
  split
  · exact .null
  · obtain ⟨q, hq, htext, -⟩ := Json.floatLayout.exists_parts_text x
    exact .decimal ⟨x.sign, q, hq, htext⟩

@[simp] theorem Var.spelled_toJson (v : Var) : v.toJson.Spelled := by
  simp [toJson]

namespace Expr

theorem toJsonAll_eq_map (es : List Expr) : toJsonAll es = es.map toJson := by
  induction es with
  | nil => rfl
  | cons e es ih => rw [toJsonAll, ih, List.map_cons]

@[simp] theorem spelled_toJson (e : Expr) : e.toJson.Spelled := by
  induction e using inductionOn with
  | int n => simp [toJson]
  | float x => simp [toJson]
  | str s => simp [toJson]
  | var v => simp [toJson]
  | binary op a b iha ihb => simp [toJson, iha, ihb]
  | cast t a iha => simp [toJson, iha]
  | load v is ih => simpa [toJson, toJsonAll_eq_map] using ih
  | call t f as ih => simpa [toJson, toJsonAll_eq_map] using ih

@[simp] theorem spelled_listJson (es : List Expr) : (listJson es).Spelled := by
  simp [listJson, toJsonAll_eq_map]

end Expr

@[simp] theorem Block.spelled_toJson (b : Block) : b.toJson.Spelled := by
  induction b with
  | seq a b iha ihb => simp [toJson, iha, ihb]
  | loop k i body ih => simp [toJson, Range.toJson, ih]
  | alloc v shape storage body ih => simp [toJson, ih]
  | bind bs body ih => simp [toJson, Binding.toJson, ih]
  | eval e => simp [toJson]
  | store v is e => simp [toJson]

theorem Kernel.spelled_toJson (k : Kernel) : k.toJson.Spelled := by
  obtain ⟨g, body, source⟩ := k
  cases source with
  | none => simp [toJson, Buffer.toJson, Json.Spelled.null]
  | some s => simp [toJson, Buffer.toJson]

/-- **An artifact is read back as the JSON value of its kernel.** -/
theorem Kernel.read?_artifact (k : Kernel) : Json.read? k.artifact = some k.toJson :=
  Json.read?_pretty k.spelled_toJson

/-! ## JSON values of different trees differ -/

namespace Json

@[simp] theorem text_inj {s t : String} : text s = text t ↔ s = t := by
  rw [text, text, str.injEq, Option.some.injEq]

@[simp] theorem object_inj {fs gs : List (String × Json)} : object fs = object gs ↔ fs = gs := by
  have hinj : Function.Injective fun f : String × Json => (some f.1, f.2) := by
    rintro ⟨k, v⟩ ⟨l, w⟩ h
    obtain ⟨hk, hv⟩ := Prod.mk.inj h
    exact Prod.ext (Option.some.inj hk) hv
  rw [object, object, obj.injEq, (List.map_injective_iff.2 hinj).eq_iff]

end Json

/-- Lists of the same values are the same, where values tell members apart. -/
theorem eq_of_map_eq {α β : Type} {f : α → β} {as bs : List α}
    (hf : ∀ a ∈ as, ∀ b ∈ bs, f a = f b → a = b) (h : as.map f = bs.map f) : as = bs := by
  induction as generalizing bs with
  | nil => exact (List.map_eq_nil_iff.1 h.symm).symm
  | cons a as ih =>
    cases bs with
    | nil => exact nomatch h
    | cons b bs =>
      obtain ⟨hab, hrest⟩ := List.cons.inj h
      rw [hf a List.mem_cons_self b List.mem_cons_self hab, ih (fun a ha b hb =>
        hf a (List.mem_cons_of_mem _ ha) b (List.mem_cons_of_mem _ hb)) hrest]

@[simp] theorem ElemType.text_inj {t u : ElemType} : t.text = u.text ↔ t = u :=
  text_injective.eq_iff

@[simp] theorem Operator.tag_inj {o p : Operator} : o.tag = p.tag ↔ o = p := by
  cases o <;> cases p <;> decide

@[simp] theorem Var.toJson_inj {v w : Var} : v.toJson = w.toJson ↔ v = w := by
  cases v
  cases w
  simp [toJson]

namespace Binary64

variable {x y : Binary64}

theorem toJson_of_isFinite (h : x.isFinite = true) :
    x.toJson = .decimal (Json.floatLayout.text x) := by
  rw [toJson, if_neg (by simpa [isFinite] using h)]

/-- NaN and the infinities are not told apart. -/
theorem toJson_eq_null_iff : x.toJson = .null ↔ x.isFinite = false := by
  cases h : x.isFinite with
  | true => simp [toJson_of_isFinite h]
  | false =>
    have hlost : (x.isNaN || x.isInfinite) = true := by
      simpa only [isFinite, Bool.not_eq_false'] using h
    simp [toJson, hlost]

theorem eq_of_toJson_eq (hx : x.isFinite = true) (hy : y.isFinite = true)
    (h : x.toJson = y.toJson) : x = y := by
  rw [toJson_of_isFinite hx, toJson_of_isFinite hy, Json.decimal.injEq] at h
  exact Decimal.Layout.text_injective (l := Json.floatLayout) (by decide) h

end Binary64

namespace Expr

/-- An expression is determined by its JSON value. -/
theorem eq_of_toJson_eq {e f : Expr} (he : AllFinite e.floats) (hf : AllFinite f.floats)
    (h : e.toJson = f.toJson) : e = f := by
  induction e using inductionOn generalizing f <;> cases f <;>
    simp [toJson, toJsonAll_eq_map] at h
  case int.int m n => rw [Int64.toInt_inj.1 h]
  case float.float x y =>
    have hx := he x (List.mem_singleton_self x)
    have hy := hf y (List.mem_singleton_self y)
    rw [Binary64.eq_of_toJson_eq hx hy h]
  case str.str s t => rw [h]
  case var.var v w => rw [h]
  case binary.binary o a b iha ihb p c d =>
    obtain ⟨ha, hb⟩ := allFinite_append.1 he
    obtain ⟨hc, hd⟩ := allFinite_append.1 hf
    obtain ⟨hop, hac, hbd⟩ := h
    rw [hop, iha ha hc hac, ihb hb hd hbd]
  case cast.cast t a iha u b =>
    have hab := @iha b he hf h.2
    rw [h.1, hab]
  case load.load v is ih w js =>
    have his := finite_of_floatsAll he
    have hjs := finite_of_floatsAll hf
    rw [h.1, eq_of_map_eq (fun i hi j hj => ih i hi (his i hi) (hjs j hj)) h.2]
  case call.call t f as ih u g bs =>
    have has := finite_of_floatsAll he
    have hbs := finite_of_floatsAll hf
    obtain ⟨htype, hname, hargs⟩ := h
    rw [htype, hname, eq_of_map_eq (fun a ha b hb => ih a ha (has a ha) (hbs b hb)) hargs]

theorem eq_of_listJson_eq {es fs : List Expr} (hes : AllFinite (floatsAll es))
    (hfs : AllFinite (floatsAll fs)) (h : listJson es = listJson fs) : es = fs := by
  rw [listJson, listJson, Json.arr.injEq, toJsonAll_eq_map, toJsonAll_eq_map] at h
  exact eq_of_map_eq (fun e he f hf =>
    eq_of_toJson_eq (finite_of_floatsAll hes e he) (finite_of_floatsAll hfs f hf)) h

end Expr

theorem Range.eq_of_toJson_eq {q r : Range} (hq : AllFinite (Expr.floatsAll q.parts))
    (hr : AllFinite (Expr.floatsAll r.parts)) (h : q.toJson = r.toJson) : q = r := by
  have hlist : Expr.listJson q.parts = Expr.listJson r.parts := by
    simpa [toJson, Expr.listJson, Expr.toJsonAll, parts] using h
  have hparts := Expr.eq_of_listJson_eq hq hr hlist
  cases q
  cases r
  simpa [parts] using hparts

theorem Binding.eq_of_toJson_eq {b c : Binding} (hb : AllFinite b.value.floats)
    (hc : AllFinite c.value.floats) (h : b.toJson = c.toJson) : b = c := by
  obtain ⟨v, e⟩ := b
  obtain ⟨w, f⟩ := c
  simp only [toJson, Json.object_inj, List.cons.injEq, Prod.mk.injEq, Var.toJson_inj] at h
  obtain ⟨⟨-, rfl⟩, ⟨-, hvalue⟩, -⟩ := h
  rw [@Expr.eq_of_toJson_eq e f hb hc hvalue]

/-- A block is determined by its JSON value. -/
theorem Block.eq_of_toJson_eq {b c : Block} (hb : AllFinite b.floats) (hc : AllFinite c.floats)
    (h : b.toJson = c.toJson) : b = c := by
  induction b generalizing c <;> cases c <;> simp [toJson] at h
  case seq.seq a b iha ihb c d =>
    obtain ⟨ha, hb⟩ := allFinite_append.1 hb
    obtain ⟨hc, hd⟩ := allFinite_append.1 hc
    rw [iha ha hc h.1, ihb hb hd h.2]
  case loop.loop k i body ih l j body' =>
    obtain ⟨hi, hbody⟩ := allFinite_append.1 hb
    obtain ⟨hj, hbody'⟩ := allFinite_append.1 hc
    obtain ⟨v, q, s⟩ := i
    obtain ⟨w, r, t⟩ := j
    obtain ⟨⟨hvar, hrange, hkind⟩, hloop, htag⟩ := h
    simp only at hvar htag
    have hqr : q = r := Range.eq_of_toJson_eq hi hj hrange
    rw [LoopKind.text_injective hkind, hvar, hqr, htag, ih hbody hbody' hloop]
  case alloc.alloc v shape storage body ih w shape' storage' body' =>
    obtain ⟨hs, hbody⟩ := allFinite_append.1 hb
    obtain ⟨hs', hbody'⟩ := allFinite_append.1 hc
    obtain ⟨hvar, hshape, hstorage, hblock⟩ := h
    rw [hvar, hstorage, Expr.eq_of_listJson_eq hs hs' hshape, ih hbody hbody' hblock]
  case bind.bind bs body ih bs' body' =>
    obtain ⟨hbs, hbody⟩ := allFinite_append.1 hb
    obtain ⟨hbs', hbody'⟩ := allFinite_append.1 hc
    have hvalues := List.forall_mem_map.1 (Expr.finite_of_floatsAll hbs)
    have hvalues' := List.forall_mem_map.1 (Expr.finite_of_floatsAll hbs')
    rw [ih hbody hbody' h.2, eq_of_map_eq
      (fun b hb c hc => Binding.eq_of_toJson_eq (hvalues b hb) (hvalues' c hc)) h.1]
  case eval.eval e f => rw [@Expr.eq_of_toJson_eq e f hb hc h]
  case store.store v is e w js f =>
    obtain ⟨his, he⟩ := allFinite_append.1 hb
    obtain ⟨hjs, hf⟩ := allFinite_append.1 hc
    obtain ⟨hvar, hindices, hvalue⟩ := h
    rw [hvar, Expr.eq_of_listJson_eq his hjs hindices, Expr.eq_of_toJson_eq he hf hvalue]

theorem Buffer.eq_of_toJson_eq {b c : Buffer} (hb : AllFinite (Expr.floatsAll b.shape))
    (hc : AllFinite (Expr.floatsAll c.shape)) (h : b.toJson = c.toJson) : b = c := by
  obtain ⟨v, es⟩ := b
  obtain ⟨w, fs⟩ := c
  simp only [toJson, Json.object_inj, List.cons.injEq, Prod.mk.injEq, Var.toJson_inj] at h
  obtain ⟨⟨-, rfl⟩, ⟨-, hshape⟩, -⟩ := h
  rw [@Expr.eq_of_listJson_eq es fs hb hc hshape]

namespace Kernel

/-- A kernel is determined by its JSON value. -/
theorem eq_of_toJson_eq {k l : Kernel} (hk : AllFinite k.floats) (hl : AllFinite l.floats)
    (h : k.toJson = l.toJson) : k = l := by
  obtain ⟨⟨name, buffers, scalars⟩, body, source⟩ := k
  obtain ⟨⟨name', buffers', scalars'⟩, body', source'⟩ := l
  obtain ⟨hk, hbody⟩ := allFinite_append.1 hk
  obtain ⟨hl, hbody'⟩ := allFinite_append.1 hl
  simp only [toJson, Json.object_inj, Json.text_inj, Json.arr.injEq, List.cons.injEq,
    Prod.mk.injEq, true_and, and_true] at h
  obtain ⟨rfl, hbuffers, hscalars, hblock, hsource⟩ := h
  have hshapes : ∀ b ∈ buffers, AllFinite (Expr.floatsAll b.shape) :=
    fun b hb x hx => hk x (List.mem_flatMap_of_mem hb hx)
  have hshapes' : ∀ b ∈ buffers', AllFinite (Expr.floatsAll b.shape) :=
    fun b hb x hx => hl x (List.mem_flatMap_of_mem hb hx)
  obtain rfl := eq_of_map_eq
    (fun b hb c hc => Buffer.eq_of_toJson_eq (hshapes b hb) (hshapes' c hc)) hbuffers
  obtain rfl := eq_of_map_eq (fun _ _ _ _ => Var.toJson_inj.1) hscalars
  obtain rfl : body = body' := Block.eq_of_toJson_eq hbody hbody' hblock
  cases source <;> cases source' <;> simp [Json.text] at hsource
  case none.none => rfl
  case some.some s t => rw [hsource]

/-- **Different kernels have different artifacts**, if all their floating-point literals are
finite. -/
theorem artifact_inj {k l : Kernel} (hk : AllFinite k.floats) (hl : AllFinite l.floats) :
    k.artifact = l.artifact ↔ k = l := by
  refine ⟨fun h => eq_of_toJson_eq hk hl ?_, fun h => h ▸ rfl⟩
  have hread := k.read?_artifact
  rw [h, l.read?_artifact] at hread
  exact (Option.some.inj hread).symm

/-- A buffer is scaled by a number. Variables are numbered from `base` on. -/
def scale (base : Nat) (x : Binary64) : Kernel :=
  let a : Var := ⟨base, "a", .float64⟩
  let i : Var := ⟨base + 1, "i", .int32⟩
  ⟨⟨"scale", [⟨a, [.int 4]⟩], []⟩,
    .loop .spatial ⟨i, .upTo 0 4, ""⟩ (.store a [.var i] (.load a [.var i] * .float x)), none⟩

/-- The numbers of variables and the sign of a zero are shown. -/
theorem artifact_inj_scale :
    AllFinite (scale 0 .zero).floats ∧ AllFinite (scale 2 .zero).floats ∧
      AllFinite (scale 0 ⟨0x8000000000000000⟩).floats ∧
      (scale 0 .zero).artifact ≠ (scale 2 .zero).artifact ∧
      (scale 0 .zero).artifact ≠ (scale 0 ⟨0x8000000000000000⟩).artifact := by
  have hzero : AllFinite (scale 0 .zero).floats := by decide
  have hshifted : AllFinite (scale 2 .zero).floats := by decide
  have hnegative : AllFinite (scale 0 ⟨0x8000000000000000⟩).floats := by decide
  refine ⟨hzero, hshifted, hnegative, fun h => ?_, fun h => ?_⟩
  · exact absurd ((artifact_inj hzero hshifted).1 h) (by decide)
  · exact absurd ((artifact_inj hzero hnegative).1 h) (by decide)

end Kernel

end LoopNest
