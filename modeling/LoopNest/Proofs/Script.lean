import LoopNest.Proofs.Recording
import LoopNest.Trace.Basic

/-!
# Scripts of a trace

A script is what a client does with a trace, from one point of a scope to the scope's end: it adds
statements, opens a scope and ends it after a script of its own, or opens a scope for all the rest.
It holds the operations that succeeded, as one that fails records nothing. Its expressions may name
the variables that its operations make, which are numbered as they come.

* `Statement`, `Script`: what a client does;
* `Script.play`: the operations on a trace;
* `Script.reading`: the blocks that a script stands for, from a number for its first variable;
* **`Script.play_eq`**: playing a script succeeds, and records its plan;
* **`build_eq_reading`**: the trace is finished to the one block that the script stands for.
-/

namespace LoopNest

/-! ## Statements -/

/-- A statement as a client gives it. What a store selects must be an element. -/
inductive Statement where
  | store (target : View) (selectors : List Selector) (value : Expr) (buffer : Var)
    (indices : List Expr) (h : target.select selectors = .ok (.element buffer indices))
  | call (type : ElemType) (name : String) (args : List Expr)
  | evaluate (value : Expr)

namespace Statement

/-- Add the statement to a trace. -/
def play : Statement → Trace → Except Error Trace
  | store target selectors value _ _ _, t => t.store target selectors value
  | call type name args, t => return t.call type name args
  | evaluate value, t => return t.evaluate value

/-- The block that is recorded. -/
def block : Statement → Block
  | store _ _ value buffer indices _ => .store buffer indices value
  | call type name args => .eval (.call type name args)
  | evaluate value => .eval value

theorem play_eq (s : Statement) (t : Trace) : s.play t = .ok (t.add s.block) := by
  cases s with
  | store target selectors value buffer indices h =>
    rw [play, Trace.store, h]
    rfl
  | call | evaluate => rfl

end Statement

/-! ## Scripts -/

/-- What a client does until a scope ends. -/
inductive Script where
  | done
  | statement (s : Statement) (rest : Script)
  | loop (kind : LoopKind) (decl : LoopDecl) (parts : List (String × Range × String))
    (h : decl.check = .ok parts) (body rest : Script)
  /-- A buffer until the end of its own scope. -/
  | buffer (shape : List Expr) (storage : String) (type : ElemType) (name : String)
    (body rest : Script)
  /-- A buffer for the rest of the scope. -/
  | allocate (shape : List Expr) (storage : String) (type : ElemType) (name : String)
    (rest : Script)
  /-- A value for the rest of the scope. -/
  | letVar (name : String) (value : Expr) (rest : Script)

namespace Script

/-- Do all this with a trace. -/
def play : Script → Trace → Except Error Trace
  | done, t => return t
  | statement s rest, t => do
    let t ← s.play t
    rest.play t
  | loop kind decl _ _ body rest, t => do
    let (r, t) ← t.enterLoop kind decl
    let t ← body.play t
    let t ← t.leave r.1
    rest.play t
  | buffer shape storage type name body rest, t => do
    let (r, t) := t.enterAlloc shape storage type name
    let t ← body.play t
    let t ← t.leave r.2
    rest.play t
  | allocate shape storage type name rest, t => rest.play (t.allocate shape storage type name).2
  | letVar name value rest, t => rest.play (t.letVar name value).2

/-- Integer variables numbered from `n` on. -/
def numbered : Nat → List String → List Var
  | _, [] => []
  | n, name :: names => ⟨n, name, .int32⟩ :: numbered (n + 1) names

theorem length_numbered (n : Nat) (names : List String) :
    (numbered n names).length = names.length := by
  induction names generalizing n with
  | nil => rfl
  | cons name names ih => exact congrArg Nat.succ (ih (n + 1))

theorem le_id_of_mem_numbered {n : Nat} {names : List String} {v : Var}
    (hv : v ∈ numbered n names) : n ≤ v.id := by
  induction names generalizing n with
  | nil => exact absurd hv List.not_mem_nil
  | cons name names ih =>
    obtain rfl | hv := List.mem_cons.1 hv
    · exact Nat.le_refl n
    · exact Nat.le_of_succ_le (ih hv)

theorem id_lt_of_mem_numbered {n : Nat} {names : List String} {v : Var}
    (hv : v ∈ numbered n names) : v.id < n + names.length := by
  induction names generalizing n with
  | nil => exact absurd hv List.not_mem_nil
  | cons name names ih =>
    rw [List.length_cons]
    obtain rfl | hv := List.mem_cons.1 hv
    · exact Nat.lt_add_of_pos_right (Nat.succ_pos _)
    · have := ih hv
      omega

/-- The variables are different. -/
theorem nodup_numbered (n : Nat) (names : List String) : (numbered n names).Nodup := by
  induction names generalizing n with
  | nil => exact List.nodup_nil
  | cons name names ih =>
    refine List.nodup_cons.2 ⟨fun h => ?_, ih (n + 1)⟩
    exact Nat.not_succ_le_self n (le_id_of_mem_numbered h)

/-- The indices of a loop, their variables numbered from `n` on. -/
def indices (n : Nat) (parts : List (String × Range × String)) : List LoopIndex :=
  List.zipWith (fun v p => ⟨v, p.2.1, p.2.2⟩) (numbered n (parts.map Prod.fst)) parts

/-- Each index has the next variable, and the range that is given for it. -/
theorem map_indices (n : Nat) (parts : List (String × Range × String)) :
    (indices n parts).map LoopIndex.var = numbered n (parts.map Prod.fst) ∧
      (indices n parts).map LoopIndex.range = parts.map fun p => p.2.1 := by
  induction parts generalizing n with
  | nil => exact ⟨rfl, rfl⟩
  | cons p parts ih =>
    obtain ⟨hvar, hrange⟩ := ih (n + 1)
    exact ⟨congrArg (List.cons _) hvar, congrArg (List.cons _) hrange⟩

/-- The number of variables that a script makes. -/
def count : Script → Nat
  | done => 0
  | statement _ rest => rest.count
  | loop _ _ parts _ body rest => parts.length + body.count + rest.count
  | buffer _ _ _ _ body rest => 1 + body.count + rest.count
  | allocate _ _ _ _ rest => 1 + rest.count
  | letVar _ _ rest => 1 + rest.count

/-- Loops around a body, the first index outermost, or the body written out for each point. -/
def loops (kind : LoopKind) (is : List LoopIndex) (body : Block) : Except Error Block :=
  match kind with
  | .unroll => Block.unroll is body
  | .spatial | .reduce | .zigzag => return Block.nest kind is body

theorem nest_of_loops {kind : LoopKind} {is : List LoopIndex} {body b : Block}
    (hkind : kind ≠ .unroll) (h : loops kind is body = .ok b) : b = Block.nest kind is body := by
  cases kind with
  | unroll => exact absurd rfl hkind
  | spatial | reduce | zigzag => exact (Except.ok.inj h).symm

/-- The blocks that a script stands for, its variables numbered from `n` on. -/
def reading : Script → Nat → Except Error (List Block)
  | done, _ => return []
  | statement s rest, n => do
    let bs ← rest.reading n
    return s.block :: bs
  | loop kind _ parts _ body rest, n => do
    let inside ← body.reading (n + parts.length)
    let b ← loops kind (indices n parts) (Block.ofList inside)
    let bs ← rest.reading (n + parts.length + body.count)
    return b :: bs
  | buffer shape storage type name body rest, n => do
    let inside ← body.reading (n + 1)
    let bs ← rest.reading (n + 1 + body.count)
    return .alloc ⟨n, name, type⟩ shape storage (Block.ofList inside) :: bs
  | allocate shape storage type name rest, n => do
    let inside ← rest.reading (n + 1)
    return [.alloc ⟨n, name, type⟩ shape storage (Block.ofList inside)]
  | letVar name value rest, n => do
    let inside ← rest.reading (n + 1)
    return [.bind [⟨⟨n, name, value.type⟩, value⟩] (Block.ofList inside)]

/-- The record that a script makes, its variables numbered from `n` on. -/
def plan : Script → Nat → Plan
  | done, _ => .done
  | statement s rest, n => .leaf s.block (rest.plan n)
  | loop kind _ parts _ body rest, n =>
    .closed (.loop kind (indices n parts)) (body.plan (n + parts.length))
      (rest.plan (n + parts.length + body.count))
  | buffer shape storage type name body rest, n =>
    .closed (.alloc ⟨n, name, type⟩ shape storage) (body.plan (n + 1))
      (rest.plan (n + 1 + body.count))
  | allocate shape storage type name rest, n =>
    .opened (.alloc ⟨n, name, type⟩ shape storage) (rest.plan (n + 1))
  | letVar name value rest, n =>
    .opened (.bind [⟨⟨n, name, value.type⟩, value⟩]) (rest.plan (n + 1))

/-- A script and its plan stand for the same blocks. -/
theorem reading_plan (s : Script) (n : Nat) : (s.plan n).reading = s.reading n := by
  induction s generalizing n with
  | done => rfl
  | statement s rest ih => rw [plan, Plan.reading, ih, reading]
  | loop kind decl parts h body rest ihb ihr =>
    rw [plan, Plan.reading, ihb, ihr, reading]
    cases kind <;> rfl
  | buffer shape storage type name body rest ihb ihr =>
    rw [plan, Plan.reading, ihb, ihr, reading]
    rfl
  | allocate shape storage type name rest ih =>
    rw [plan, Plan.reading, ih, reading]
    rfl
  | letVar name value rest ih =>
    rw [plan, Plan.reading, ih, reading]
    rfl

/-! ## Playing a script -/

theorem newVars_eq (t : Trace) (names : List String) : t.newVars .int32 names =
    (numbered t.fresh names, { t with fresh := t.fresh + names.length }) := by
  induction names generalizing t with
  | nil => rfl
  | cons name names ih =>
    rw [Trace.newVars]
    simp only [Trace.newVar, ih, numbered, List.length_cons, Nat.add_assoc, Nat.add_comm 1]

theorem enterLoop_eq {decl : LoopDecl} {parts : List (String × Range × String)}
    (h : decl.check = .ok parts) (kind : LoopKind) (t : Trace) : t.enterLoop kind decl =
      .ok ((⟨t.tree.size⟩, numbered t.fresh (parts.map Prod.fst)),
        ⟨t.fresh + parts.length, t.tree.enter (.loop kind (indices t.fresh parts)) false,
          t.bound⟩) := by
  rw [Trace.enterLoop, h]
  change Except.ok _ = _
  rw [newVars_eq, List.length_map]
  rfl

/-- A script can be played, and records its plan. -/
def Plays (s : Script) : Prop :=
  ∀ t : Trace, t.tree.Ready → ∃ bound, s.play t =
    .ok ⟨t.fresh + s.count, t.tree.after (s.plan t.fresh), bound⟩

/-- A scope that was opened, with a script in it, its end, and a script after it. -/
theorem play_scope {body rest : Script} (hbody : body.Plays) (hrest : rest.Plays)
    {tree : ScopeTree} (ht : tree.Ready) (form : ScopeForm) (n : Nat) (views : List View) :
    ∃ bound, (do
      let u ← body.play ⟨n, tree.enter form false, views⟩
      let u ← u.leave ⟨tree.size⟩
      rest.play u) = .ok ⟨n + body.count + rest.count,
        tree.after (.closed form (body.plan n) (rest.plan (n + body.count))), bound⟩ := by
  obtain ⟨views, hplay⟩ := hbody ⟨n, tree.enter form false, views⟩ (ht.enter form false)
  obtain ⟨bound, hplay'⟩ := hrest ⟨n + body.count, tree.filled form (body.plan n), views⟩
    (ht.filled form _)
  have hleave : Trace.leave ⟨n + body.count, (tree.enter form false).after (body.plan n), views⟩
      ⟨tree.size⟩ = .ok ⟨n + body.count, tree.filled form (body.plan n), views⟩ := by
    rw [Trace.leave, ScopeTree.close_after_enter ht]
    rfl
  refine ⟨bound, ?_⟩
  rw [hplay]
  change (Trace.leave _ _ >>= rest.play) = _
  rw [hleave, ← ScopeTree.after_closed ht]
  exact hplay'

/-- **Playing a script succeeds, and records its plan.** -/
theorem play_eq (s : Script) : s.Plays := by
  induction s with
  | done =>
    intro t _
    refine ⟨t.bound, ?_⟩
    rw [plan, ScopeTree.after_done]
    rfl
  | statement s rest ih =>
    intro t ht
    obtain ⟨bound, hrest⟩ := ih (t.add s.block) (ht.addStatement s.block)
    refine ⟨bound, ?_⟩
    rw [play, s.play_eq, plan, ← ScopeTree.after_leaf ht]
    exact hrest
  | loop kind decl parts h body rest ihb ihr =>
    intro t ht
    obtain ⟨bound, hscope⟩ := play_scope ihb ihr ht (.loop kind (indices t.fresh parts))
      (t.fresh + parts.length) t.bound
    refine ⟨bound, ?_⟩
    rw [play, enterLoop_eq h, plan, count, ← Nat.add_assoc, ← Nat.add_assoc]
    exact hscope
  | buffer shape storage type name body rest ihb ihr =>
    intro t ht
    obtain ⟨bound, hscope⟩ := play_scope ihb ihr ht (.alloc ⟨t.fresh, name, type⟩ shape storage)
      (t.fresh + 1) (View.root ⟨t.fresh, name, type⟩ shape storage :: t.bound)
    refine ⟨bound, ?_⟩
    rw [play, plan, count, ← Nat.add_assoc, ← Nat.add_assoc]
    exact hscope
  | allocate shape storage type name rest ih =>
    intro t ht
    obtain ⟨bound, hrest⟩ := ih (t.allocate shape storage type name).2 (ht.enter _ true)
    refine ⟨bound, ?_⟩
    rw [play, plan, count, ← Nat.add_assoc, ← ScopeTree.after_opened]
    exact hrest
  | letVar name value rest ih =>
    intro t ht
    obtain ⟨bound, hrest⟩ := ih (t.letVar name value).2 (ht.enter _ true)
    refine ⟨bound, ?_⟩
    rw [play, plan, count, ← Nat.add_assoc, ← ScopeTree.after_opened]
    exact hrest

end Script

/-! ## What is built -/

namespace Block

/-- The stores and evaluations anywhere in a block, in program order. Doing nothing is none of
them. -/
def leaves : Block → List Block
  | seq a b => a.leaves ++ b.leaves
  | loop _ _ body => body.leaves
  | alloc _ _ _ body => body.leaves
  | bind _ body => body.leaves
  | eval e => if isNop (eval e) then [] else [eval e]
  | store v is e => [store v is e]

theorem leaves_ofList (bs : List Block) : (ofList bs).leaves = bs.flatMap leaves :=
  collect_ofList rfl (fun _ _ => rfl) bs

theorem leaves_nest (kind : LoopKind) (is : List LoopIndex) (b : Block) :
    (nest kind is b).leaves = b.leaves := by
  induction is with
  | nil => rfl
  | cons i is ih => exact ih

end Block

namespace Script

/-- The statements of a script, in the order in which they are recorded. -/
def leaves : Script → List Block
  | done => []
  | statement s rest => s.block.leaves ++ rest.leaves
  | loop _ _ _ _ body rest => body.leaves ++ rest.leaves
  | buffer _ _ _ _ body rest => body.leaves ++ rest.leaves
  | allocate _ _ _ _ rest => rest.leaves
  | letVar _ _ rest => rest.leaves

/-- Some loop is to be written out. -/
def unrolls : Script → Bool
  | done => false
  | statement _ rest => rest.unrolls
  | loop kind _ _ _ body rest => kind == .unroll || body.unrolls || rest.unrolls
  | buffer _ _ _ _ body rest => body.unrolls || rest.unrolls
  | allocate _ _ _ _ rest => rest.unrolls
  | letVar _ _ rest => rest.unrolls

/-- Without loops to be written out the blocks have the statements of the script. -/
theorem leaves_reading {s : Script} (hu : s.unrolls = false) {n : Nat} {bs : List Block}
    (h : s.reading n = .ok bs) : bs.flatMap Block.leaves = s.leaves := by
  induction s generalizing n bs with
  | done =>
    obtain rfl := Except.ok.inj h
    rfl
  | statement s rest ih =>
    obtain ⟨cs, hcs, h⟩ := bind_eq_ok_iff.1 h
    obtain rfl := Except.ok.inj h
    rw [List.flatMap_cons, ih hu hcs, leaves]
  | loop kind decl parts _ body rest ihb ihr =>
    simp only [unrolls, Bool.or_eq_false_iff, beq_eq_false_iff_ne] at hu
    obtain ⟨⟨hkind, hub⟩, hur⟩ := hu
    obtain ⟨inside, hinside, h⟩ := bind_eq_ok_iff.1 h
    obtain ⟨b, hb, h⟩ := bind_eq_ok_iff.1 h
    obtain ⟨cs, hcs, h⟩ := bind_eq_ok_iff.1 h
    obtain rfl := Except.ok.inj h
    obtain rfl := nest_of_loops hkind hb
    rw [List.flatMap_cons, Block.leaves_nest, Block.leaves_ofList, ihb hub hinside, ihr hur hcs,
      leaves]
  | buffer shape storage type name body rest ihb ihr =>
    simp only [unrolls, Bool.or_eq_false_iff] at hu
    obtain ⟨inside, hinside, h⟩ := bind_eq_ok_iff.1 h
    obtain ⟨cs, hcs, h⟩ := bind_eq_ok_iff.1 h
    obtain rfl := Except.ok.inj h
    rw [List.flatMap_cons, Block.leaves, Block.leaves_ofList, ihb hu.1 hinside, ihr hu.2 hcs,
      leaves]
  | allocate shape storage type name rest ih =>
    obtain ⟨inside, hinside, h⟩ := bind_eq_ok_iff.1 h
    obtain rfl := Except.ok.inj h
    rw [List.flatMap_singleton, Block.leaves, Block.leaves_ofList, ih hu hinside, leaves]
  | letVar name value rest ih =>
    obtain ⟨inside, hinside, h⟩ := bind_eq_ok_iff.1 h
    obtain rfl := Except.ok.inj h
    rw [List.flatMap_singleton, Block.leaves, Block.leaves_ofList, ih hu hinside, leaves]

/-- No loop that is to be written out fails. -/
def Expands : Script → Nat → Prop
  | done, _ => True
  | statement _ rest, n => rest.Expands n
  | loop kind _ parts _ body rest, n =>
    body.Expands (n + parts.length) ∧ rest.Expands (n + parts.length + body.count) ∧
      (kind = .unroll → ∀ inside, body.reading (n + parts.length) = .ok inside →
        ∃ b, Block.unroll (indices n parts) (Block.ofList inside) = .ok b)
  | buffer _ _ _ _ body rest, n => body.Expands (n + 1) ∧ rest.Expands (n + 1 + body.count)
  | allocate _ _ _ _ rest, n => rest.Expands (n + 1)
  | letVar _ _ rest, n => rest.Expands (n + 1)

/-- A script has a reading exactly if all its loops that are to be written out can be. -/
theorem reading_isOk_iff {s : Script} {n : Nat} : (∃ bs, s.reading n = .ok bs) ↔ s.Expands n := by
  induction s generalizing n with
  | done => exact ⟨fun _ => trivial, fun _ => ⟨[], rfl⟩⟩
  | statement s rest ih =>
    rw [Expands, ← ih]
    constructor
    · rintro ⟨bs, h⟩
      obtain ⟨cs, hcs, -⟩ := bind_eq_ok_iff.1 h
      exact ⟨cs, hcs⟩
    · rintro ⟨cs, hcs⟩
      exact ⟨_, bind_eq_ok_iff.2 ⟨cs, hcs, rfl⟩⟩
  | loop kind decl parts _ body rest ihb ihr =>
    rw [Expands, ← ihb, ← ihr]
    constructor
    · rintro ⟨bs, h⟩
      obtain ⟨inside, hinside, h⟩ := bind_eq_ok_iff.1 h
      obtain ⟨b, hb, h⟩ := bind_eq_ok_iff.1 h
      obtain ⟨cs, hcs, -⟩ := bind_eq_ok_iff.1 h
      refine ⟨⟨inside, hinside⟩, ⟨cs, hcs⟩, fun hkind inside' hinside' => ⟨b, ?_⟩⟩
      obtain rfl : inside = inside' := Except.ok.inj (hinside.symm.trans hinside')
      rwa [hkind] at hb
    · rintro ⟨⟨inside, hinside⟩, ⟨cs, hcs⟩, hunroll⟩
      obtain ⟨b, hb⟩ : ∃ b, loops kind (indices n parts) (Block.ofList inside) = .ok b := by
        cases kind with
        | unroll => exact hunroll rfl inside hinside
        | spatial | reduce | zigzag => exact ⟨_, rfl⟩
      exact ⟨_, bind_eq_ok_iff.2 ⟨inside, hinside, bind_eq_ok_iff.2 ⟨b, hb,
        bind_eq_ok_iff.2 ⟨cs, hcs, rfl⟩⟩⟩⟩
  | buffer shape storage type name body rest ihb ihr =>
    rw [Expands, ← ihb, ← ihr]
    constructor
    · rintro ⟨bs, h⟩
      obtain ⟨inside, hinside, h⟩ := bind_eq_ok_iff.1 h
      obtain ⟨cs, hcs, -⟩ := bind_eq_ok_iff.1 h
      exact ⟨⟨inside, hinside⟩, ⟨cs, hcs⟩⟩
    · rintro ⟨⟨inside, hinside⟩, ⟨cs, hcs⟩⟩
      exact ⟨_, bind_eq_ok_iff.2 ⟨inside, hinside, bind_eq_ok_iff.2 ⟨cs, hcs, rfl⟩⟩⟩
  | allocate shape storage type name rest ih =>
    rw [Expands, ← ih]
    constructor
    · rintro ⟨bs, h⟩
      obtain ⟨inside, hinside, -⟩ := bind_eq_ok_iff.1 h
      exact ⟨inside, hinside⟩
    · rintro ⟨inside, hinside⟩
      exact ⟨_, bind_eq_ok_iff.2 ⟨inside, hinside, rfl⟩⟩
  | letVar name value rest ih =>
    rw [Expands, ← ih]
    constructor
    · rintro ⟨bs, h⟩
      obtain ⟨inside, hinside, -⟩ := bind_eq_ok_iff.1 h
      exact ⟨inside, hinside⟩
    · rintro ⟨inside, hinside⟩
      exact ⟨_, bind_eq_ok_iff.2 ⟨inside, hinside, rfl⟩⟩

end Script

theorem wrap_root_eq_ok_iff {bs : List Block} {b : Block} :
    ScopeForm.root.wrap bs = .ok b ↔ bs = [b] := by
  match bs with
  | [] => simp [ScopeForm.wrap]
  | [c] => simp [ScopeForm.wrap]
  | c :: d :: cs => simp [ScopeForm.wrap]

/-- **What is built is what the script stands for.** Every script can be played on a new trace. The
trace is finished to the reading of the script, and without failure exactly if every loop that is to
be written out can be and the reading is one block. Where there is no such loop, the block has the
recorded statements, each once and in their order. -/
theorem build_eq_reading (s : Script) (n : Nat) : ∃ t, s.play (.start n) = .ok t ∧
    t.toBlock = s.reading n >>= ScopeForm.root.wrap ∧
    (∀ b, t.toBlock = .ok b ↔ s.reading n = .ok [b]) ∧
    ((∃ b, t.toBlock = .ok b) ↔ s.Expands n ∧ ∀ bs, s.reading n = .ok bs → bs.length = 1) ∧
    (s.unrolls = false → ∀ b, t.toBlock = .ok b → b.leaves = s.leaves) := by
  obtain ⟨bound, hplay⟩ := s.play_eq (.start n) ScopeTree.ready_empty
  obtain ⟨t, ht⟩ : ∃ t : Trace, t = ⟨n + s.count, ScopeTree.empty.after (s.plan n), bound⟩ :=
    ⟨_, rfl⟩
  have hbuild : t.toBlock = s.reading n >>= ScopeForm.root.wrap := by
    rw [ht, Trace.toBlock, ScopeTree.checkClosed_after_empty, ← s.reading_plan]
    exact ScopeTree.lower_after_empty (s.plan n)
  have hok : ∀ b, t.toBlock = .ok b ↔ s.reading n = .ok [b] := by
    intro b
    rw [hbuild, bind_eq_ok_iff]
    constructor
    · rintro ⟨bs, hbs, hb⟩
      rw [hbs, wrap_root_eq_ok_iff.1 hb]
    · exact fun h => ⟨[b], h, rfl⟩
  refine ⟨t, ht ▸ hplay, hbuild, hok, ?_, fun hu b hb => ?_⟩
  · rw [← Script.reading_isOk_iff]
    constructor
    · rintro ⟨b, hb⟩
      have hreading := (hok b).1 hb
      refine ⟨⟨[b], hreading⟩, fun bs hbs => ?_⟩
      rw [← Except.ok.inj (hreading.symm.trans hbs)]
      rfl
    · rintro ⟨⟨bs, hbs⟩, hlen⟩
      obtain ⟨b, rfl⟩ := List.length_eq_one_iff.1 (hlen bs hbs)
      exact ⟨b, (hok b).2 hbs⟩
  · rw [← Script.leaves_reading hu ((hok b).1 hb), List.flatMap_singleton]

/-- A buffer for all that follows: a loop with a value in its body, and an evaluation. -/
def tickScript : Script :=
  .allocate [.int 4] "local" .int32 "p"
    (.loop .spatial (.one "i" ⟨.int 0, .int 2, .int 1⟩) [("i", ⟨.int 0, .int 2, .int 1⟩, "")] rfl
      (.letVar "x" (.var ⟨1, "i", .int32⟩ + .int 1)
        (.statement (.call .int32 "tick" [.var ⟨2, "x", .int32⟩]) .done))
      (.statement (.evaluate (.load ⟨0, "p", .int32⟩ [.int 0])) .done))

theorem build_eq_reading_tickScript : ∃ t, tickScript.play (.start 0) = .ok t ∧
    t.toBlock = .ok (.alloc ⟨0, "p", .int32⟩ [.int 4] "local"
      (.seq
        (.loop .spatial ⟨⟨1, "i", .int32⟩, ⟨.int 0, .int 2, .int 1⟩, ""⟩
          (.bind [⟨⟨2, "x", .int32⟩, .var ⟨1, "i", .int32⟩ + .int 1⟩]
            (.eval (.call .int32 "tick" [.var ⟨2, "x", .int32⟩]))))
        (.eval (.load ⟨0, "p", .int32⟩ [.int 0])))) := by
  obtain ⟨t, ht, -, hok, -⟩ := build_eq_reading tickScript 0
  exact ⟨t, ht, (hok _).2 rfl⟩

end LoopNest
