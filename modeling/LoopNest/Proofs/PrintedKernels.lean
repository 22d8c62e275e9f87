import LoopNest.Kernel.Identity
import LoopNest.Proofs.PrintedBlocks

/-!
# Kernels read back from their identities

An identity shows the name of a kernel, its parameters with their types and shapes, and the rows of
its body. What it does not show are the numbers of variables, the types of calls and the types of
the variables that loops and bindings introduce.

* `Kernel.calls`, `Kernel.Legible`: names that look like names, throughout a kernel;
* `Buffer.Alike`, `Kernel.Alike`: kernels that differ only in what is not shown;
* **`Kernel.alike_of_identity_eq`**: kernels of one identity are alike.
-/

namespace LoopNest

open Text

/-! ## What is shown of a kernel -/

/-- Two buffer parameters differ only in what their texts do not show. -/
structure Buffer.Alike (b c : Buffer) : Prop where
  name : b.var.name = c.var.name
  type : b.var.type = c.var.type
  shape : Expr.AllAlike b.shape c.shape

namespace Kernel

/-- The calls of a kernel, as names with types. -/
def calls (k : Kernel) : List (String × ElemType) :=
  k.signature.buffers.flatMap (fun b => Expr.callsAll b.shape) ++ k.body.calls

/-- Variables and functions have names that look like names, the name of the kernel holds neither a
bar nor the end of a line, and storage classes are on one line. -/
structure Legible (k : Kernel) : Prop where
  name : '|' ∉ k.signature.name.toList ∧ '\n' ∉ k.signature.name.toList
  vars : ∀ v ∈ k.vars, Plain v.name
  calls : ∀ c ∈ k.calls, Callable c.1
  storages : ∀ s ∈ k.body.storages, '\n' ∉ s.toList

/-- Two kernels differ only in what their identities do not show. -/
structure Alike (k l : Kernel) : Prop where
  name : k.signature.name = l.signature.name
  buffers : List.Forall₂ Buffer.Alike k.signature.buffers l.signature.buffers
  scalars : List.Forall₂ (fun v w => v.name = w.name ∧ v.type = w.type) k.signature.scalars
    l.signature.scalars
  rows : List.Forall₂ (fun p q => p.1 = q.1 ∧ p.2.Alike q.2) (k.body.rows 0) (l.body.rows 0)

section

variable {k : Kernel} (h : k.Legible)

include h

theorem Legible.body : k.body.Legible where
  vars v hv := h.vars v (List.mem_append_right _ hv)
  calls c hc := h.calls c (List.mem_append_right _ hc)
  storages := h.storages

theorem Legible.scalar {v : Var} (hv : v ∈ k.signature.scalars) : Plain v.name :=
  h.vars v (List.mem_append_left _ (List.mem_append_right _ hv))

theorem Legible.buffer {b : Buffer} (hb : b ∈ k.signature.buffers) :
    Plain b.var.name ∧ ∀ e ∈ b.shape, e.Legible := by
  have hvars : ∀ v ∈ b.var :: Expr.varsAll b.shape, Plain v.name := fun v hv =>
    h.vars v (List.mem_append_left _ (List.mem_append_left _ (List.mem_flatMap_of_mem hb hv)))
  obtain ⟨hvar, hshape⟩ := List.forall_mem_cons.1 hvars
  exact ⟨hvar, Expr.legible_of_all hshape fun c hc =>
    h.calls c (List.mem_append_left _ (List.mem_flatMap_of_mem hb hc))⟩

end

/-! ## Parameters -/

/-- A parameter up to its shape. -/
def paramText (v : Var) : List Char := '|' :: (v.text.toList ++ ':' :: v.type.text.toList)

theorem toList_scalarText (v : Var) : (scalarText v).toList = paramText v := by
  simp [scalarText, paramText]

theorem toList_bufferText (b : Buffer) (r : List Char) : (bufferText b).toList ++ r =
    paramText b.var ++ '[' :: ((",".intercalate (Expr.texts b.shape)).toList ++ ']' :: r) := by
  simp [bufferText, paramText]

theorem paramText_append_inj {v w : Var} (hv : Plain v.name) (hw : Plain w.name) {r s : List Char}
    (hr : BeginsWith isDelimiter r) (hs : BeginsWith isDelimiter s)
    (h : paramText v ++ r = paramText w ++ s) : (v.name = w.name ∧ v.type = w.type) ∧ r = s := by
  have hcolon : ∀ q, BeginsWith isDelimiter (':' :: q) := fun q => ⟨':', q, rfl, by decide⟩
  simp only [paramText, List.cons_append, List.append_assoc] at h
  obtain ⟨hname, h⟩ := Var.text_append_inj hv hw (hcolon _) (hcolon _) (List.cons.inj h).2
  obtain ⟨htype, hrest⟩ := word_append_inj ElemType.text_injective ElemType.text_chars hr hs
    (List.cons.inj h).2
  exact ⟨⟨hname, htype⟩, hrest⟩

theorem bufferText_append_inj {b c : Buffer} (hb : Plain b.var.name ∧ ∀ e ∈ b.shape, e.Legible)
    (hc : Plain c.var.name ∧ ∀ e ∈ c.shape, e.Legible) {r s : List Char}
    (h : (bufferText b).toList ++ r = (bufferText c).toList ++ s) : b.Alike c ∧ r = s := by
  have hopen : ∀ q, BeginsWith isDelimiter ('[' :: q) := fun q => ⟨'[', q, rfl, by decide⟩
  rw [toList_bufferText, toList_bufferText] at h
  obtain ⟨⟨hname, htype⟩, h⟩ := paramText_append_inj hb.1 hc.1 (hopen _) (hopen _) h
  obtain ⟨hshape, hrest⟩ := Expr.listing_append_inj "," rfl
    (fun e he => Expr.readsBack (hb.2 e he)) hb.2 hc.2 (by decide) (by decide) (List.cons.inj h).2
  exact ⟨⟨hname, htype, hshape⟩, hrest⟩

/-- The characters that end a part of the first line. -/
def isBar (c : Char) : Bool := decide (c = '|' ∨ c = '\n')

theorem isDelimiter_of_isBar {r : List Char} (h : BeginsWith isBar r) :
    BeginsWith isDelimiter r := by
  obtain ⟨c, cs, rfl, hc⟩ := h
  refine ⟨c, cs, rfl, ?_⟩
  rcases of_decide_eq_true hc with rfl | rfl <;> decide

theorem beginsWith_scalars (vs : List Var) (r : List Char) :
    BeginsWith isBar (vs.flatMap paramText ++ '\n' :: r) := by
  cases vs with
  | nil => exact ⟨'\n', r, rfl, by decide⟩
  | cons v vs => exact ⟨'|', _, rfl, by decide⟩

theorem beginsWith_params (bs : List Buffer) (vs : List Var) (r : List Char) :
    BeginsWith isBar
      (bs.flatMap (fun b => (bufferText b).toList) ++ (vs.flatMap paramText ++ '\n' :: r)) := by
  cases bs with
  | nil => exact beginsWith_scalars vs r
  | cons b bs =>
    rw [List.flatMap_cons, List.append_assoc, toList_bufferText]
    exact ⟨'|', _, rfl, by decide⟩

/-- A buffer parameter is not read as a scalar, for its type is followed by a bracket. -/
theorem bufferText_ne_scalars {b : Buffer} (hb : Plain b.var.name) {vs : List Var}
    (hvs : ∀ v ∈ vs, Plain v.name) (q r : List Char) :
    (bufferText b).toList ++ q ≠ vs.flatMap paramText ++ '\n' :: r := by
  intro h
  rw [toList_bufferText] at h
  cases vs with
  | nil => exact absurd (List.cons.inj h).1 (by decide)
  | cons v vs =>
    rw [List.flatMap_cons, List.append_assoc] at h
    obtain ⟨-, h⟩ := paramText_append_inj hb (hvs v List.mem_cons_self) ⟨'[', _, rfl, by decide⟩
      (isDelimiter_of_isBar (beginsWith_scalars vs r)) h
    obtain ⟨c, cs, hcs, hc⟩ := beginsWith_scalars vs r
    obtain ⟨rfl, -⟩ := List.cons.inj (h.trans hcs)
    exact absurd hc (by decide)

theorem toList_identity (k : Kernel) : k.identity.toList =
    k.signature.name.toList ++ (k.signature.buffers.flatMap (fun b => (bufferText b).toList) ++
      (k.signature.scalars.flatMap paramText ++ '\n' :: k.body.text.toList)) := by
  simp [identity, List.flatMap_map, toList_scalarText, String.toList_join]

/-! ## Identities -/

/-- **Kernels of one identity are alike**, if their names look like names. -/
theorem alike_of_identity_eq {k l : Kernel} (hk : k.Legible) (hl : l.Legible)
    (h : k.identity = l.identity) : k.Alike l := by
  have hname : ∀ {k : Kernel}, k.Legible → ∀ c ∈ k.signature.name.toList, isBar c = false := by
    intro k hk c hc
    refine decide_eq_false ?_
    rintro (rfl | rfl)
    · exact hk.name.1 hc
    · exact hk.name.2 hc
  have h : k.identity.toList = l.identity.toList := congrArg String.toList h
  rw [toList_identity, toList_identity] at h
  obtain ⟨hkl, h⟩ := append_inj_of_stop (hname hk) (hname hl) (beginsWith_params _ _ _)
    (beginsWith_params _ _ _) h
  obtain ⟨hbuffers, h⟩ := flatMap_append_inj (fun _ => True) trivial trivial (fun _ _ => trivial)
    (fun b hb c hc _ _ _ _ => bufferText_append_inj (hk.buffer hb) (hl.buffer hc))
    (fun b hb q _ => bufferText_ne_scalars (hk.buffer hb).1 (fun v hv => hl.scalar hv) q _)
    (fun c hc q _ => bufferText_ne_scalars (hl.buffer hc).1 (fun v hv => hk.scalar hv) q _) h
  have hbar : ∀ (v : Var) (q r : List Char), paramText v ++ q ≠ '\n' :: r := fun v q r h =>
    absurd (List.cons.inj h).1 (by decide)
  obtain ⟨hscalars, h⟩ := flatMap_append_inj (BeginsWith isDelimiter) ⟨'\n', _, rfl, by decide⟩
    ⟨'\n', _, rfl, by decide⟩ (fun v q => ⟨'|', _, rfl, by decide⟩)
    (fun v hv w hw _ _ hr hs => paramText_append_inj (hk.scalar hv) (hl.scalar hw) hr hs)
    (fun v _ q _ => hbar v q _) (fun w _ q _ => hbar w q _) h
  have hbody : k.body.text = l.body.text := String.toList_inj.1 (List.cons.inj h).2
  exact ⟨String.toList_inj.1 hkl, hbuffers, hscalars,
    Block.alike_of_text_eq hk.body hl.body hbody⟩

end Kernel

end LoopNest
