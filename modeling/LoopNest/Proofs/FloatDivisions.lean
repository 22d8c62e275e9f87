import LoopNest.Proofs.FloatValues
import LoopNest.Proofs.OpaqueCalls

/-!
# Divisions of floating-point numbers

The routines for division take integers, and C cuts off whatever else they are given. So a division
is refused if an operand has a floating-point type. What is emitted divides no such operand, in any
statement and at any depth; but an operand whose type hides its floating-point value goes through.

* `Division`, `Expr.divisions`, `C.Stmt.divisions`, `Block.divisions`: what is divided where;
* **`Expr.needs_eq_any`**: an expression needs the routines of its divisions;
* **`Expr.divisions_fold_subset`**: the divisions of a folded expression;
* **`Row.divided_toCAll`**: the divisions of the rows of a block, after they were accepted;
* **`emitted_divisions`**: the divisions in what is emitted, and when they take a floating-point
  number.
-/

namespace LoopNest

/-! ## Divisions of expressions -/

theorem C.Routine.divides_of_ofOperator? {op : Operator} {r : Routine}
    (h : ofOperator? op = some r) : op = .floorDiv ∨ op = .floorMod := by
  cases op with
  | floorDiv => exact .inl rfl
  | floorMod => exact .inr rfl
  | _ => exact nomatch h

/-- A routine and the operands that it is called with. -/
structure Division where
  routine : C.Routine
  dividend : Expr
  divisor : Expr
deriving DecidableEq

namespace Division

/-- Neither operand has a floating-point type. -/
def Admitted (d : Division) : Prop :=
  d.dividend.type.isFloat = false ∧ d.divisor.type.isFloat = false

/-- An operand has a floating-point value. -/
def TakesFloat (d : Division) : Prop :=
  d.dividend.isFloatValued = true ∨ d.divisor.isFloatValued = true

/-- An operand has a floating-point value that its type hides. -/
def HidesFloat (d : Division) : Prop := d.dividend.HidesFloat ∨ d.divisor.HidesFloat

instance (d : Division) : Decidable d.TakesFloat := inferInstanceAs (Decidable (_ ∨ _))

instance (d : Division) : Decidable d.HidesFloat := inferInstanceAs (Decidable (_ ∨ _))

/-- The division of the folded operands. -/
def fold (d : Division) : Division := ⟨d.routine, d.dividend.fold, d.divisor.fold⟩

/-- **An admitted division takes a floating-point number only if a type hides one.** -/
theorem Admitted.takesFloat_iff {d : Division} (h : d.Admitted) : d.TakesFloat ↔ d.HidesFloat :=
  or_congr ⟨fun hval => ⟨hval, h.1⟩, And.left⟩ ⟨fun hval => ⟨hval, h.2⟩, And.left⟩

/-- Folding the operands hides nothing. -/
theorem HidesFloat.of_fold {d : Division} (h : d.fold.HidesFloat) : d.HidesFloat :=
  h.imp Expr.HidesFloat.of_fold Expr.HidesFloat.of_fold

end Division

namespace Expr

/-- The division that an operator is, if it is one. -/
def division? (op : Operator) (a b : Expr) : Option Division :=
  (C.Routine.ofOperator? op).map fun r => ⟨r, a, b⟩

mutual

/-- The divisions anywhere in an expression. -/
def divisions : Expr → List Division
  | int _ | float _ | str _ | var _ => []
  | binary op a b => (division? op a b).toList ++ (a.divisions ++ b.divisions)
  | cast _ a => a.divisions
  | load _ is => divisionsAll is
  | call _ _ as => divisionsAll as

/-- The divisions anywhere in expressions. -/
def divisionsAll : List Expr → List Division
  | [] => []
  | e :: es => e.divisions ++ divisionsAll es

end

section

variable {op : Operator} {a b e : Expr} {es : List Expr} {v : Var} {t : ElemType} {f : String}
  {r : C.Routine} {d : Division}

theorem divisionsAll_eq_flatMap : divisionsAll es = es.flatMap divisions := by
  induction es with
  | nil => rfl
  | cons e es ih => rw [divisionsAll, ih, List.flatMap_cons]

@[simp] theorem divisions_load : (load v es).divisions = es.flatMap divisions :=
  divisionsAll_eq_flatMap

@[simp] theorem divisions_call : (call t f es).divisions = es.flatMap divisions :=
  divisionsAll_eq_flatMap

theorem mem_divisions_binary : d ∈ (binary op a b).divisions ↔
    (∃ r, C.Routine.ofOperator? op = some r ∧ d = ⟨r, a, b⟩) ∨ d ∈ a.divisions ∨
      d ∈ b.divisions := by
  rw [divisions, List.mem_append, List.mem_append, Option.mem_toList, division?,
    Option.map_eq_some_iff]
  simp only [eq_comm (a := d)]

theorem anyNeeds_eq_any : anyNeeds r es = es.any (needs r) := by
  induction es with
  | nil => rfl
  | cons e es ih => rw [anyNeeds, ih, List.any_cons]

/-- **An expression needs the routines of its divisions** and no others. -/
theorem needs_eq_any : e.needs r = e.divisions.any fun d => d.routine == r := by
  have hlist : ∀ {es : List Expr},
      (∀ e ∈ es, e.needs r = e.divisions.any fun d => d.routine == r) →
      anyNeeds r es = (es.flatMap divisions).any fun d => d.routine == r := by
    intro es hes
    rw [anyNeeds_eq_any, List.any_flatMap, Bool.eq_iff_iff, List.any_eq_true, List.any_eq_true]
    exact exists_congr fun e => and_congr_right fun he => by rw [hes e he]
  induction e using inductionOn with
  | int | float | str | var => rfl
  | binary op a b iha ihb =>
    have hop : (C.Routine.ofOperator? op == some r) =
        (division? op a b).toList.any fun d => d.routine == r := by
      cases hr : C.Routine.ofOperator? op with
      | none => simp [division?, hr]
      | some r' => simp [division?, hr]
    rw [needs, divisions, List.any_append, List.any_append, hop, iha, ihb, Bool.or_assoc]
  | cast t a iha => exact iha
  | load v is ih =>
    rw [divisions_load, needs]
    exact hlist ih
  | call t f as ih =>
    rw [divisions_call, needs]
    exact hlist ih

/-- Divisions of floating-point types are no expressions of C. -/
theorem admitted_of_checkC {ranks : C.Ranks} (h : e.checkC ranks = .ok ()) :
    ∀ d ∈ e.divisions, d.Admitted := by
  induction e using inductionOn with
  | int | float | str | var => exact List.forall_mem_nil _
  | binary op a b iha ihb =>
    obtain ⟨ha, hb, hfloat⟩ := checkC_binary_iff.1 h
    intro d hd
    obtain ⟨r, hr, rfl⟩ | hd | hd := mem_divisions_binary.1 hd
    · have hop : op = .floorDiv ∨ op = .floorMod := C.Routine.divides_of_ofOperator? hr
      simpa [DividesFloats, hop, not_or, Division.Admitted] using hfloat
    · exact iha ha d hd
    · exact ihb hb d hd
  | cast t a iha => exact iha h
  | load v is ih =>
    rw [divisions_load]
    exact List.forall_mem_flatMap.2 fun i hi => ih i hi ((checkC_load_iff.1 h).2 i hi)
  | call t f as ih =>
    rw [divisions_call]
    exact List.forall_mem_flatMap.2 fun a ha => ih a ha (checkC_call_iff.1 h a ha)

/-- **The divisions of a folded expression** are divisions of the expression with folded
operands. -/
theorem divisions_fold_subset (e : Expr) : e.fold.divisions ⊆ e.divisions.map Division.fold := by
  have hlist : ∀ {es : List Expr}, (∀ e ∈ es, e.fold.divisions ⊆ e.divisions.map Division.fold) →
      (es.map fold).flatMap divisions ⊆ (es.flatMap divisions).map Division.fold := by
    intro es hes d hd
    rw [List.flatMap_map] at hd
    obtain ⟨e, he, hd⟩ := List.mem_flatMap.1 hd
    obtain ⟨c, hc, rfl⟩ := List.mem_map.1 (hes e he hd)
    exact List.mem_map_of_mem (List.mem_flatMap_of_mem he hc)
  induction e using inductionOn with
  | int | float | str | var => exact List.nil_subset _
  | binary op a b iha ihb =>
    have hleft : a.fold.divisions ⊆ (binary op a b).divisions.map Division.fold := by
      refine List.Subset.trans iha (List.map_subset _ fun d hd => ?_)
      exact mem_divisions_binary.2 (.inr (.inl hd))
    have hright : b.fold.divisions ⊆ (binary op a b).divisions.map Division.fold := by
      refine List.Subset.trans ihb (List.map_subset _ fun d hd => ?_)
      exact mem_divisions_binary.2 (.inr (.inr hd))
    have hfolded := folded_foldOperation op a.fold b.fold
    rw [fold_binary]
    generalize foldOperation op a.fold b.fold = e at hfolded
    cases hfolded with
    | node =>
      intro d hd
      obtain ⟨r, hr, rfl⟩ | hd | hd := mem_divisions_binary.1 hd
      · exact List.mem_map_of_mem (f := Division.fold)
          (mem_divisions_binary.2 (.inl ⟨r, hr, rfl⟩))
      · exact hleft hd
      · exact hright hd
    | literal => exact List.nil_subset _
    | identity _ _ hid =>
      obtain rfl | rfl | rfl := hid.mem
      · exact hleft
      · exact hright
      · exact List.nil_subset _
  | cast t a iha => exact iha
  | load v is ih =>
    rw [fold_load, divisions_load, divisions_load]
    exact hlist ih
  | call t f as ih =>
    rw [fold_call, divisions_call, divisions_call]
    exact hlist ih

end

end Expr

/-! ## Divisions of rows -/

/-- The divisions of a row. -/
def Row.divisions (row : Row) : List Division := row.exprs.flatMap Expr.divisions

/-- The divisions of a row of C. -/
def C.Row.divisions (row : C.Row) : List Division := row.exprs.flatMap Expr.divisions

/-- Divisions of C that come from divisions of a block: they are admitted, and they are the same or
have folded operands. -/
structure Divided (ds cs : List Division) : Prop where
  admitted : ∀ c ∈ cs, c.Admitted
  subset : cs ⊆ ds ++ ds.map Division.fold

namespace Divided

variable {ds ds' cs cs' : List Division}

theorem nil : Divided ds [] := ⟨List.forall_mem_nil _, List.nil_subset _⟩

theorem append (h : Divided ds cs) (h' : Divided ds' cs') :
    Divided (ds ++ ds') (cs ++ cs') where
  admitted := List.forall_mem_append.2 ⟨h.admitted, h'.admitted⟩
  subset := by
    intro c hc
    have hs := @h.subset c
    have hs' := @h'.subset c
    simp only [List.map_append, List.mem_append] at hc hs hs' ⊢
    tauto

/-- Expressions that are checked as they stand. -/
theorem same {ranks : C.Ranks} {es : List Expr} (h : ∀ e ∈ es, e.checkC ranks = .ok ()) :
    Divided (es.flatMap Expr.divisions) (es.flatMap Expr.divisions) where
  admitted := List.forall_mem_flatMap.2 fun e he => Expr.admitted_of_checkC (h e he)
  subset := List.subset_append_left _ _

/-- The first value and the bound of a loop. -/
theorem loop {ranks : C.Ranks} {r : Range} {s : Word} (hfirst : r.first.checkC ranks = .ok ())
    (hbound : (r.bound s).checkC ranks = .ok ()) :
    Divided (r.parts.flatMap Expr.divisions)
      ([r.first, r.bound s].flatMap Expr.divisions) where
  admitted := by
    refine List.forall_mem_flatMap.2 fun e he => ?_
    obtain rfl | rfl := List.mem_pair.1 he
    · exact Expr.admitted_of_checkC hfirst
    · exact Expr.admitted_of_checkC hbound
  subset := by
    intro c hc
    have hsum : (r.first + r.extent * .int s).divisions =
        r.first.divisions ++ (r.extent.divisions ++ []) := rfl
    have hs := @Expr.divisions_fold_subset (r.first + r.extent * .int s) c
    rw [← Range.bound, hsum] at hs
    simp only [Range.parts, List.flatMap_cons, List.flatMap_nil, List.map_append, List.mem_append,
      List.append_nil] at hc hs ⊢
    tauto

end Divided

/-- **The divisions of a row**, after it was accepted. -/
theorem Row.divided {zigzag : Bool} {known : C.Ranks} {row : Row} {cs : List C.Row}
    (h : row.toC zigzag known = .ok cs) :
    Divided row.divisions (cs.flatMap C.Row.divisions) := by
  cases row with
  | loop k i =>
    obtain ⟨l, hl, h⟩ := bind_eq_ok_iff.1 h
    obtain ⟨⟨⟩, hfirst, h⟩ := bind_eq_ok_iff.1 h
    obtain ⟨⟨⟩, hbound, h⟩ := bind_eq_ok_iff.1 h
    obtain rfl := Except.ok.inj h
    obtain ⟨-, s, -, -, rfl⟩ := LoopIndex.toC_eq_ok_iff.1 hl
    rw [List.flatMap_singleton]
    exact .loop hfirst hbound
  | alloc v shape storage =>
    obtain ⟨⟨⟩, hshape, h⟩ := bind_eq_ok_iff.1 h
    obtain rfl := Except.ok.inj h
    rw [List.flatMap_singleton]
    exact .same (Expr.checkAllC_iff.1 hshape)
  | bind bs =>
    obtain ⟨⟨⟩, hbs, h⟩ := bind_eq_ok_iff.1 h
    obtain rfl := Except.ok.inj h
    rw [List.flatMap_singleton]
    exact .same (Expr.checkAllC_iff.1 hbs)
  | eval e =>
    rw [toC] at h
    split at h
    · obtain rfl := Except.ok.inj h
      exact .nil
    · obtain ⟨⟨⟩, he, h⟩ := bind_eq_ok_iff.1 h
      obtain rfl := Except.ok.inj h
      rw [List.flatMap_singleton]
      exact .same (List.forall_mem_singleton.2 he)
  | store v is e =>
    obtain ⟨-, -, h⟩ := bind_eq_ok_iff.1 h
    obtain ⟨⟨⟩, his, h⟩ := bind_eq_ok_iff.1 h
    obtain ⟨⟨⟩, he, h⟩ := bind_eq_ok_iff.1 h
    obtain rfl := Except.ok.inj h
    rw [List.flatMap_singleton]
    exact .same (List.forall_mem_append.2
      ⟨Expr.checkAllC_iff.1 his, List.forall_mem_singleton.2 he⟩)
  | close =>
    obtain rfl := Except.ok.inj h
    exact .nil

/-- **The divisions of rows**, one after the other. -/
theorem Row.divided_toCAll {zigzag : Bool} {known : C.Ranks} {ps : List (Nat × Row)}
    {cs : List (Nat × C.Row)} (h : toCAll zigzag known ps = .ok cs) :
    Divided (ps.flatMap fun p => p.2.divisions) (cs.flatMap fun c => c.2.divisions) := by
  induction ps generalizing known cs with
  | nil =>
    obtain rfl := Except.ok.inj h
    exact .nil
  | cons p ps ih =>
    obtain ⟨row, hrow, h⟩ := bind_eq_ok_iff.1 h
    obtain ⟨rest, hrest, h⟩ := bind_eq_ok_iff.1 h
    obtain rfl := Except.ok.inj h
    rw [List.flatMap_cons, List.flatMap_append, List.flatMap_map]
    exact (divided hrow).append (ih hrest)

/-! ## Divisions of blocks -/

/-- The divisions of a block. -/
def Block.divisions (b : Block) : List Division := (b.rows 0).flatMap fun p => p.2.divisions

/-- The divisions of a C statement. -/
def C.Stmt.divisions (s : C.Stmt) : List Division := (s.rows 0).flatMap fun p => p.2.divisions

theorem C.Row.needs_eq_any (r : Routine) (row : C.Row) :
    row.needs r = row.exprs.any (Expr.needs r) := by
  cases row with
  | loop head => simp [needs, exprs]
  | array v shape storage => exact Expr.anyNeeds_eq_any
  | consts bs => rw [exprs, List.any_map]; rfl
  | eval e => simp [needs, exprs]
  | assign v is e => simp [needs, exprs, Expr.anyNeeds_eq_any]
  | close => rfl

/-- **A statement needs the routines of its divisions** and no others. -/
theorem C.Stmt.mem_routines_iff {s : C.Stmt} {r : Routine} :
    r ∈ s.routines ↔ ∃ d ∈ s.divisions, d.routine = r := by
  have hall : r ∈ Routine.all := by cases r <;> decide
  have hexpr : Expr.needs r = fun e => e.divisions.any fun d => d.routine == r :=
    funext fun _ => Expr.needs_eq_any
  have hneeds : s.needs r = s.divisions.any fun d => d.routine == r := by
    simp only [needs_eq_rows r 0, Row.needs_eq_any, hexpr, divisions, Row.divisions,
      List.any_flatMap]
  rw [routines, List.mem_filter, and_iff_right hall, hneeds, List.any_eq_true]
  simp only [beq_iff_eq]

/-! ## Main statement -/

/-- **No division that is emitted has an operand of floating-point type.** It takes a floating-point
number if and only if a type hides one, which cannot be if no division of the block has such an
operand. The routines in the source are those of the divisions. -/
theorem emitted_divisions {t : Target} {b : Block} {text : String}
    (h : t.emit b = .ok text ∨ ∃ g, t.emitFunction g b = .ok text) :
    ∃ s, t.accept b = .ok s ∧
      (∀ d ∈ s.divisions, d.Admitted ∧ (d.TakesFloat ↔ d.HidesFloat)) ∧
      ((∀ d ∈ b.divisions, ¬d.HidesFloat) → ∀ d ∈ s.divisions, ¬d.TakesFloat) ∧
      ∀ r, r ∈ s.routines ↔ ∃ d ∈ s.divisions, d.routine = r := by
  obtain ⟨s, hs⟩ : ∃ s, t.accept b = .ok s := by
    obtain h | ⟨g, h⟩ := h
    · exact (bind_eq_ok_iff.1 h).imp fun s => And.left
    · exact (bind_eq_ok_iff.1 h).imp fun s => And.left
  have hdivided : Divided b.divisions s.divisions := Row.divided_toCAll (Target.toCAll_of_accept hs)
  refine ⟨s, hs, fun d hd => ?_, fun hshown d hd htakes => ?_, fun r => C.Stmt.mem_routines_iff⟩
  · exact ⟨hdivided.admitted d hd, (hdivided.admitted d hd).takesFloat_iff⟩
  · have hhides := (hdivided.admitted d hd).takesFloat_iff.1 htakes
    obtain hd | hd := List.mem_append.1 (hdivided.subset hd)
    · exact hshown d hd hhides
    · obtain ⟨c, hc, rfl⟩ := List.mem_map.1 hd
      exact hshown c hc hhides.of_fold

/-- The remainder of a value by two, stored. -/
def remainderOf (e : Expr) : Block :=
  .store ⟨2, "a", .int32⟩ [.int 0] (.binary .floorMod e (.int 2))

theorem emitted_divisions_remainders :
    (∃ s, Target.portable.accept (remainderOf (.var ⟨0, "i", .int32⟩)) = .ok s ∧
      .floorMod ∈ s.routines ∧ ∀ d ∈ s.divisions, ¬d.TakesFloat) ∧
    ∃ s, Target.portable.accept (remainderOf mixedSum) = .ok s ∧
      .floorMod ∈ s.routines ∧ ∀ d ∈ s.divisions, d.Admitted ∧ d.TakesFloat := by
  constructor
  · obtain ⟨s, hs, -, hnone, hroutines⟩ := emitted_divisions (t := .portable)
      (b := remainderOf (.var ⟨0, "i", .int32⟩)) (.inl rfl)
    obtain rfl := Except.ok.inj hs
    exact ⟨_, rfl, (hroutines .floorMod).2 (by decide), hnone (by decide)⟩
  · obtain ⟨s, hs, hdivisions, -, hroutines⟩ := emitted_divisions (t := .portable)
      (b := remainderOf mixedSum) (.inl rfl)
    obtain rfl := Except.ok.inj hs
    refine ⟨_, rfl, (hroutines .floorMod).2 (by decide), fun d hd => ?_⟩
    obtain ⟨hadmitted, htakes⟩ := hdivisions d hd
    obtain rfl := List.mem_singleton.1 hd
    exact ⟨hadmitted, htakes.2 (by decide)⟩

/-- **A routine can be called with a floating-point number.** -/
theorem not_emitted_divisions : ¬∀ (target : Target) (b : Block) (text : String),
    target.emit b = .ok text →
      ∃ s, target.accept b = .ok s ∧ ∀ d ∈ s.divisions, ¬d.TakesFloat := by
  intro h
  obtain ⟨s, hs, hnone⟩ :=
    h .portable (remainderOf mixedSum) "a[0] = stagir_floormod((i + x), 2);\n" rfl
  obtain rfl := Except.ok.inj hs
  exact hnone ⟨.floorMod, mixedSum, .int 2⟩ (by decide) (by decide)

end LoopNest
