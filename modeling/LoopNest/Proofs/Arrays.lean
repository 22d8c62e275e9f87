import LoopNest.Proofs.Coverage
import LoopNest.Proofs.Script
import Mathlib.Data.List.Nodup

/-!
# Scripts through arrays

A script allocates arrays, and each has a variable of its own. If all loads and stores go through
arrays, each access has as many indices as its array has dimensions, and the array is registered
before it, unless the allocation was lost with a loop that is written out to nothing.

* `Script.arrays`: the arrays that a script allocates;
* **`Script.exists_array`**, **`Script.allocated_reading`**: the blocks allocate these arrays, and
  all of them where no loop is written out to nothing;
* `Statement.Through`, `Script.Through`: scripts that load and store through arrays only;
* `Closed`: arrays with extents that load through these arrays;
* **`Script.coveredAll_reading`**: the accesses of the blocks that a script stands for.
-/

namespace LoopNest

/-! ## The arrays of a script -/

namespace Script

/-- The arrays that a script allocates, its variables numbered from `n` on, the latest first. -/
def arrays : Script → Nat → List View
  | done, _ => []
  | statement _ rest, n => rest.arrays n
  | loop _ _ parts _ body rest, n =>
    rest.arrays (n + parts.length + body.count) ++ body.arrays (n + parts.length)
  | buffer shape storage type name body rest, n =>
    rest.arrays (n + 1 + body.count) ++
      (body.arrays (n + 1) ++ [.root ⟨n, name, type⟩ shape storage])
  | allocate shape storage type name rest, n =>
    rest.arrays (n + 1) ++ [.root ⟨n, name, type⟩ shape storage]
  | letVar _ _ rest, n => rest.arrays (n + 1)

theorem id_arrays {s : Script} {n : Nat} {a : View} (h : a ∈ s.arrays n) :
    n ≤ a.buffer.id ∧ a.buffer.id < n + s.count := by
  induction s generalizing n with
  | done => exact nomatch h
  | statement s rest ih => exact ih h
  | loop kind decl parts _ body rest ihb ihr =>
    rw [count]
    rcases List.mem_append.1 h with h | h
    · have := ihr h
      omega
    · have := ihb h
      omega
  | buffer shape storage type name body rest ihb ihr =>
    rw [count]
    rcases List.mem_append.1 h with h | h
    · have := ihr h
      omega
    · rcases List.mem_append.1 h with h | h
      · have := ihb h
        omega
      · obtain rfl := List.mem_singleton.1 h
        exact ⟨le_rfl, by show n < _; omega⟩
  | allocate shape storage type name rest ih =>
    rw [count]
    rcases List.mem_append.1 h with h | h
    · have := ih h
      omega
    · obtain rfl := List.mem_singleton.1 h
      exact ⟨le_rfl, by show n < _; omega⟩
  | letVar name value rest ih =>
    have := ih h
    rw [count]
    omega

theorem pairwise_arrays (s : Script) (n : Nat) :
    (s.arrays n).Pairwise fun a b => b.buffer.id < a.buffer.id := by
  induction s generalizing n with
  | done => exact .nil
  | statement s rest ih => exact ih n
  | loop kind decl parts _ body rest ihb ihr =>
    refine List.pairwise_append.2 ⟨ihr _, ihb _, fun a ha b hb => ?_⟩
    have hlower := (id_arrays ha).1
    have hupper := (id_arrays hb).2
    omega
  | buffer shape storage type name body rest ihb ihr =>
    have hinner : (body.arrays (n + 1) ++ [View.root ⟨n, name, type⟩ shape storage]).Pairwise
        fun a b => b.buffer.id < a.buffer.id := by
      refine List.pairwise_append.2 ⟨ihb _, List.pairwise_singleton _ _, fun a ha b hb => ?_⟩
      obtain rfl := List.mem_singleton.1 hb
      exact (id_arrays ha).1
    refine List.pairwise_append.2 ⟨ihr _, hinner, fun a ha b hb => ?_⟩
    have hlower := (id_arrays ha).1
    rcases List.mem_append.1 hb with hb | hb
    · have hupper := (id_arrays hb).2
      omega
    · obtain rfl := List.mem_singleton.1 hb
      show n < a.buffer.id
      omega
  | allocate shape storage type name rest ih =>
    refine List.pairwise_append.2 ⟨ih _, List.pairwise_singleton _ _, fun a ha b hb => ?_⟩
    obtain rfl := List.mem_singleton.1 hb
    exact (id_arrays ha).1
  | letVar name value rest ih => exact ih _

/-- Every array has a variable of its own. -/
theorem eq_of_buffer_eq {s : Script} {n : Nat} {a b : View} (ha : a ∈ s.arrays n)
    (hb : b ∈ s.arrays n) (h : a.buffer = b.buffer) : a = b := by
  have hnodup : ((s.arrays n).map fun a => a.buffer.id).Nodup :=
    List.pairwise_map.2 ((s.pairwise_arrays n).imp fun hlt => (Nat.ne_of_lt hlt).symm)
  exact List.inj_on_of_nodup_map hnodup ha hb (congrArg Var.id h)

theorem ranked_loops {kind : LoopKind} {is : List LoopIndex} {body b : Block}
    (h : loops kind is body = .ok b) {p : Var × Nat} (hp : p ∈ b.ranked) : p ∈ body.ranked := by
  cases kind with
  | unroll => exact Block.ranked_unroll h hp
  | spatial | reduce | zigzag =>
    obtain rfl := Except.ok.inj h
    rwa [Block.ranked, Block.allocs_nest] at hp

theorem registered_loops {kind : LoopKind} {is : List LoopIndex} {bs : List Block} {b : Block}
    (h : loops kind is (Block.ofList bs) = .ok b) {v : Var} (hv : v ∈ b.registered) :
    v ∈ bs.flatMap Block.registered := by
  rw [← Block.registered_ofList, Block.mem_registered_iff]
  obtain ⟨k, hk, h1⟩ := Block.mem_registered_iff.1 hv
  exact ⟨k, ranked_loops h hk, h1⟩

/-- **The blocks allocate arrays of the script**, each with its number of dimensions. -/
theorem exists_array {s : Script} {n : Nat} {bs : List Block} (h : s.reading n = .ok bs)
    {p : Var × Nat} (hp : p ∈ bs.flatMap Block.ranked) :
    ∃ a ∈ s.arrays n, (a.buffer, a.rank) = p := by
  induction s generalizing n bs with
  | done =>
    obtain rfl := Except.ok.inj h
    exact nomatch hp
  | statement s rest ih =>
    obtain ⟨cs, hcs, h⟩ := bind_eq_ok_iff.1 h
    obtain rfl := Except.ok.inj h
    have hnone : s.block.ranked = [] := by cases s <;> rfl
    rw [List.flatMap_cons, hnone, List.nil_append] at hp
    exact ih hcs hp
  | loop kind decl parts _ body rest ihb ihr =>
    obtain ⟨inside, hinside, h⟩ := bind_eq_ok_iff.1 h
    obtain ⟨b, hb, h⟩ := bind_eq_ok_iff.1 h
    obtain ⟨cs, hcs, h⟩ := bind_eq_ok_iff.1 h
    obtain rfl := Except.ok.inj h
    rw [List.flatMap_cons, List.mem_append] at hp
    rcases hp with hp | hp
    · have hp := ranked_loops hb hp
      rw [Block.ranked_ofList] at hp
      obtain ⟨a, ha, hap⟩ := ihb hinside hp
      exact ⟨a, List.mem_append_right _ ha, hap⟩
    · obtain ⟨a, ha, hap⟩ := ihr hcs hp
      exact ⟨a, List.mem_append_left _ ha, hap⟩
  | buffer shape storage type name body rest ihb ihr =>
    obtain ⟨inside, hinside, h⟩ := bind_eq_ok_iff.1 h
    obtain ⟨cs, hcs, h⟩ := bind_eq_ok_iff.1 h
    obtain rfl := Except.ok.inj h
    rw [List.flatMap_cons, List.mem_append] at hp
    rcases hp with hp | hp
    · rcases List.mem_cons.1 hp with rfl | hp
      · have hroot := List.mem_singleton_self (View.root ⟨n, name, type⟩ shape storage)
        exact ⟨_, List.mem_append_right _ (List.mem_append_right _ hroot), rfl⟩
      · have hp : p ∈ (Block.ofList inside).ranked := hp
        rw [Block.ranked_ofList] at hp
        obtain ⟨a, ha, hap⟩ := ihb hinside hp
        exact ⟨a, List.mem_append_right _ (List.mem_append_left _ ha), hap⟩
    · obtain ⟨a, ha, hap⟩ := ihr hcs hp
      exact ⟨a, List.mem_append_left _ ha, hap⟩
  | allocate shape storage type name rest ih =>
    obtain ⟨inside, hinside, h⟩ := bind_eq_ok_iff.1 h
    obtain rfl := Except.ok.inj h
    rw [List.flatMap_singleton] at hp
    rcases List.mem_cons.1 hp with rfl | hp
    · exact ⟨_, List.mem_append_right _ (List.mem_singleton_self _), rfl⟩
    · have hp : p ∈ (Block.ofList inside).ranked := hp
      rw [Block.ranked_ofList] at hp
      obtain ⟨a, ha, hap⟩ := ih hinside hp
      exact ⟨a, List.mem_append_left _ ha, hap⟩
  | letVar name value rest ih =>
    obtain ⟨inside, hinside, h⟩ := bind_eq_ok_iff.1 h
    obtain rfl := Except.ok.inj h
    rw [List.flatMap_singleton] at hp
    have hp : p ∈ (Block.ofList inside).ranked := hp
    rw [Block.ranked_ofList] at hp
    exact ih hinside hp

/-- What the blocks register is numbered within the script. -/
theorem id_registered {s : Script} {n : Nat} {bs : List Block} (h : s.reading n = .ok bs) {v : Var}
    (hv : v ∈ bs.flatMap Block.registered) : n ≤ v.id ∧ v.id < n + s.count := by
  obtain ⟨b, hb, hv⟩ := List.mem_flatMap.1 hv
  obtain ⟨k, hk, -⟩ := Block.mem_registered_iff.1 hv
  obtain ⟨a, ha, hav⟩ := exists_array h (List.mem_flatMap.2 ⟨b, hb, hk⟩)
  have hbuffer : a.buffer = v := (Prod.mk.inj hav).1
  exact hbuffer ▸ id_arrays ha

/-- No loop is written out to nothing. -/
def Keeps : Script → Prop
  | done => True
  | statement _ rest => rest.Keeps
  | loop kind _ parts _ body rest =>
    (kind = .unroll → ∀ p ∈ parts, p.2.1.extent ≠ .int 0) ∧ body.Keeps ∧ rest.Keeps
  | buffer _ _ _ _ body rest => body.Keeps ∧ rest.Keeps
  | allocate _ _ _ _ rest => rest.Keeps
  | letVar _ _ rest => rest.Keeps

theorem exists_range_of_mem_indices {n : Nat} {parts : List (String × Range × String)}
    {i : LoopIndex} (hi : i ∈ indices n parts) : ∃ p ∈ parts, i.range = p.2.1 := by
  rw [indices, ← List.map_uncurry_zip_eq_zipWith] at hi
  obtain ⟨⟨v, p⟩, hp, rfl⟩ := List.mem_map.1 hi
  exact ⟨p, (List.of_mem_zip hp).2, rfl⟩

theorem allocated_loops {kind : LoopKind} {n : Nat} {parts : List (String × Range × String)}
    {body b : Block} (h : loops kind (indices n parts) body = .ok b)
    (hparts : kind = .unroll → ∀ p ∈ parts, p.2.1.extent ≠ .int 0) {v : Var}
    (hv : v ∈ body.allocated) : v ∈ b.allocated := by
  by_cases hkind : kind = .unroll
  · subst hkind
    refine Block.allocated_unroll h (fun i hi => ?_) hv
    obtain ⟨p, hp, hrange⟩ := exists_range_of_mem_indices hi
    rw [hrange]
    exact hparts rfl p hp
  · obtain rfl := nest_of_loops hkind h
    rwa [Block.allocated, Block.allocs_nest]

/-- Where no loop is written out to nothing, the blocks allocate every array. -/
theorem allocated_reading {s : Script} (hs : s.Keeps) {n : Nat} {bs : List Block}
    (h : s.reading n = .ok bs) {a : View} (ha : a ∈ s.arrays n) :
    a.buffer ∈ bs.flatMap Block.allocated := by
  induction s generalizing n bs with
  | done => exact nomatch ha
  | statement s rest ih =>
    obtain ⟨cs, hcs, h⟩ := bind_eq_ok_iff.1 h
    obtain rfl := Except.ok.inj h
    exact List.mem_append_right _ (ih hs hcs ha)
  | loop kind decl parts _ body rest ihb ihr =>
    obtain ⟨hparts, hbody, hrest⟩ := hs
    obtain ⟨inside, hinside, h⟩ := bind_eq_ok_iff.1 h
    obtain ⟨b, hb, h⟩ := bind_eq_ok_iff.1 h
    obtain ⟨cs, hcs, h⟩ := bind_eq_ok_iff.1 h
    obtain rfl := Except.ok.inj h
    rcases List.mem_append.1 ha with ha | ha
    · exact List.mem_append_right _ (ihr hrest hcs ha)
    · have hmem := ihb hbody hinside ha
      rw [← Block.allocated_ofList] at hmem
      exact List.mem_append_left _ (allocated_loops hb hparts hmem)
  | buffer shape storage type name body rest ihb ihr =>
    obtain ⟨inside, hinside, h⟩ := bind_eq_ok_iff.1 h
    obtain ⟨cs, hcs, h⟩ := bind_eq_ok_iff.1 h
    obtain rfl := Except.ok.inj h
    rcases List.mem_append.1 ha with ha | ha
    · exact List.mem_append_right _ (ihr hs.2 hcs ha)
    · refine List.mem_append_left _ ?_
      rw [Block.allocated_alloc_ofList]
      rcases List.mem_append.1 ha with ha | ha
      · exact List.mem_cons_of_mem _ (ihb hs.1 hinside ha)
      · obtain rfl := List.mem_singleton.1 ha
        exact List.mem_cons_self
  | allocate shape storage type name rest ih =>
    obtain ⟨inside, hinside, h⟩ := bind_eq_ok_iff.1 h
    obtain rfl := Except.ok.inj h
    rw [List.flatMap_singleton, Block.allocated_alloc_ofList]
    rcases List.mem_append.1 ha with ha | ha
    · exact List.mem_cons_of_mem _ (ih hs hinside ha)
    · obtain rfl := List.mem_singleton.1 ha
      exact List.mem_cons_self
  | letVar name value rest ih =>
    obtain ⟨inside, hinside, h⟩ := bind_eq_ok_iff.1 h
    obtain rfl := Except.ok.inj h
    rw [List.flatMap_singleton]
    have hmem := ih hs hinside ha
    rw [← Block.allocated_ofList] at hmem
    exact hmem

end Script

/-! ## Through arrays -/

/-- A statement with no loads and stores but those through arrays and views cut out of them. -/
def Statement.Through (views : List View) : Statement → Prop
  | store target selectors value _ _ _ =>
    (∃ a ∈ views, ∃ chain, a.slices chain = .ok target ∧
      ∀ ss ∈ chain, ∀ s ∈ ss, ∀ e ∈ s.exprs, e.Through views) ∧
    (∀ s ∈ selectors, ∀ e ∈ s.exprs, e.Through views) ∧ value.Through views
  | call _ _ args => ∀ a ∈ args, a.Through views
  | evaluate value => value.Through views

/-- A script with no loads and stores but those through arrays that there were before, arrays that
it has allocated, and views cut out of them. -/
def Script.Through : Script → List View → Nat → Prop
  | done, _, _ => True
  | statement s rest, views, n => s.Through views ∧ rest.Through views n
  | loop _ _ parts _ body rest, views, n =>
    (∀ p ∈ parts, ∀ e ∈ p.2.1.exprs, e.Through views) ∧ body.Through views (n + parts.length) ∧
      rest.Through (body.arrays (n + parts.length) ++ views) (n + parts.length + body.count)
  | buffer shape storage type name body rest, views, n =>
    (∀ d ∈ shape, d.Through views) ∧
      body.Through (.root ⟨n, name, type⟩ shape storage :: views) (n + 1) ∧
      rest.Through (body.arrays (n + 1) ++ .root ⟨n, name, type⟩ shape storage :: views)
        (n + 1 + body.count)
  | allocate shape storage type name rest, views, n =>
    (∀ d ∈ shape, d.Through views) ∧
      rest.Through (.root ⟨n, name, type⟩ shape storage :: views) (n + 1)
  | letVar _ value rest, views, n => value.Through views ∧ rest.Through views (n + 1)

section

variable {R Known : Var × Nat → Prop} {vs : List Var} {views : List View} {s : Script} {n : Nat}

/-- Arrays whose extents have no accesses but those that may be left and those to the arrays. -/
def Closed (R : Var × Nat → Prop) (views : List View) : Prop :=
  ∀ a ∈ views, a.isBase = true ∧
    ∀ d ∈ a.shape, d.Only fun p => R p ∨ ∃ b ∈ views, p = (b.buffer, b.rank)

theorem Closed.cons (h : Closed R views) {v : Var} {shape : List Expr} {storage : String}
    (hshape : ∀ d ∈ shape, d.Through views) : Closed R (.root v shape storage :: views) := by
  have hgrow : ∀ e : Expr, (e.Only fun p => R p ∨ ∃ b ∈ views, p = (b.buffer, b.rank)) →
      e.Only fun p => R p ∨ ∃ b ∈ View.root v shape storage :: views, p = (b.buffer, b.rank) :=
    fun e he => he.mono fun p hp => hp.imp_right fun ⟨b, hb, h⟩ => ⟨b, List.mem_cons_of_mem _ hb, h⟩
  refine List.forall_mem_cons.2 ⟨⟨rfl, fun d hd => hgrow d ?_⟩, fun a ha => ?_⟩
  · exact (hshape d hd).only fun a ha => ⟨(h a ha).1, .inr ⟨a, ha, rfl⟩, (h a ha).2⟩
  · exact ⟨(h a ha).1, fun d hd => hgrow d ((h a ha).2 d hd)⟩

/-- The arrays of a script are closed with those that there were before. -/
theorem Closed.arrays (h : Closed R views) (hs : s.Through views n) :
    Closed R (s.arrays n ++ views) := by
  induction s generalizing n views with
  | done => exact h
  | statement s rest ih => exact ih h hs.2
  | loop kind decl parts _ body rest ihb ihr =>
    rw [Script.arrays, List.append_assoc]
    exact ihr (ihb h hs.2.1) hs.2.2
  | buffer shape storage type name body rest ihb ihr =>
    rw [Script.arrays, List.append_assoc, List.append_assoc, List.singleton_append]
    exact ihr (ihb (h.cons hs.1) hs.2.1) hs.2.2
  | allocate shape storage type name rest ih =>
    rw [Script.arrays, List.append_assoc, List.singleton_append]
    exact ih (h.cons hs.1) hs.2
  | letVar name value rest ih => exact ih h hs.2

/-- Arrays whose accesses are allowed, at some place of a block, and their extents with them. -/
theorem Closed.allowed (h : Closed R views)
    (hviews : ∀ a ∈ views, Allowed R Known vs (a.buffer, a.rank)) : ∀ a ∈ views,
    a.isBase = true ∧ Allowed R Known vs (a.buffer, a.rank) ∧
      ∀ d ∈ a.shape, d.Only (Allowed R Known vs) := by
  refine fun a ha => ⟨(h a ha).1, hviews a ha, fun d hd => ((h a ha).2 d hd).mono fun p hp => ?_⟩
  rcases hp with hp | ⟨b, hb, rfl⟩
  · exact .inl hp
  · exact hviews b hb

/-- A statement through allowed arrays is covered. -/
theorem Statement.covered {s : Statement} (h : Closed R views)
    (hviews : ∀ a ∈ views, Allowed R Known vs (a.buffer, a.rank)) (hs : s.Through views) :
    s.block.Covered R Known vs := by
  have harrays := h.allowed hviews
  have hexpr : ∀ e : Expr, e.Through views → e.Only (Allowed R Known vs) :=
    fun e he => he.only harrays
  cases s with
  | store target selectors value buffer indices hselect =>
    obtain ⟨⟨a, ha, chain, htarget, hchain⟩, hselectors, hvalue⟩ := hs
    obtain ⟨hroot, haccess, hshape⟩ := harrays a ha
    have hview : target.Only (Allowed R Known vs) := (View.Only.of_isBase hroot hshape).slices
      (fun ss hss s hs e he => hexpr e (hchain ss hss s hs e he)) htarget
    refine ⟨?_, ?_, hexpr value hvalue⟩
    · rw [View.access_of_slices hroot htarget hselect]
      exact haccess
    · exact hview.select (fun s hs e he => hexpr e (hselectors s hs e he)) hselect
  | call type name args => exact Expr.only_call_iff.2 fun a ha => hexpr a (hs a ha)
  | evaluate value => exact hexpr value hs

namespace Script

theorem covered_loops {kind : LoopKind} {is : List LoopIndex} {body b : Block}
    (h : loops kind is body = .ok b)
    (his : ∀ i ∈ is, ∀ e ∈ i.range.exprs, e.Only (Allowed R Known vs))
    (hbody : body.Covered R Known vs) : b.Covered R Known vs := by
  cases kind with
  | unroll => exact Block.covered_unroll h his hbody
  | spatial | reduce | zigzag =>
    obtain rfl := Except.ok.inj h
    exact Block.covered_nest his hbody

/-- An array that is numbered before what follows a block is registered by the block. -/
theorem allowed_of_lt {rest : Script} {m : Nat} {cs : List Block} (hcs : rest.reading m = .ok cs)
    {ws : List Var} {a : View} (ha : a.buffer.id < m)
    (h : Allowed R Known (ws ++ cs.flatMap Block.registered) (a.buffer, a.rank)) :
    Allowed R Known ws (a.buffer, a.rank) := by
  refine h.imp fun hv => ?_
  rcases List.mem_append.1 hv with hv | hv
  · exact hv
  · have hle : m ≤ a.buffer.id := (id_registered hcs hv).1
    omega

/-- An array that is numbered after a block is registered by what follows the block. -/
theorem allowed_of_le {ws us : List Var} {m : Nat} (hws : ∀ v ∈ ws, v.id < m) {a : View}
    (ha : m ≤ a.buffer.id) (h : Allowed R Known (ws ++ us) (a.buffer, a.rank)) :
    Allowed R Known us (a.buffer, a.rank) := by
  refine h.imp fun hv => ?_
  rcases List.mem_append.1 hv with hv | hv
  · have hlt : a.buffer.id < m := hws _ hv
    omega
  · exact hv

/-- An array that is numbered after an allocation is registered in its body. -/
theorem allowed_of_mem_addBuffer {ws : List Var} {name : String} {type : ElemType}
    {shape : List Expr} {a : View} (ha : n + 1 ≤ a.buffer.id)
    (h : Allowed R Known (Block.addBuffer ⟨n, name, type⟩ shape ws) (a.buffer, a.rank)) :
    Allowed R Known ws (a.buffer, a.rank) := by
  refine h.imp fun hv => ?_
  rcases Block.mem_addBuffer_iff.1 hv with ⟨-, hbuffer⟩ | hv
  · have hid : a.buffer.id = n := congrArg Var.id hbuffer
    omega
  · exact hv

theorem forall_allowed_cons {v : Var} {shape : List Expr} (storage : String)
    (hroot : Allowed R Known (Block.addBuffer v shape vs) (v, shape.length))
    (hviews : ∀ a ∈ views, Allowed R Known vs (a.buffer, a.rank)) :
    ∀ a ∈ View.root v shape storage :: views,
      Allowed R Known (Block.addBuffer v shape vs) (a.buffer, a.rank) :=
  List.forall_mem_cons.2 ⟨hroot, fun a ha =>
    (hviews a ha).mono fun _ hu => Block.mem_addBuffer_iff.2 (.inr hu)⟩

/-- **The blocks of a script through arrays are covered**, if its arrays are registered wherever
they are to be. -/
theorem coveredAll_reading (hlow : ∀ v n, n < 2 → R (v, n)) {bs : List Block}
    (h : s.reading n = .ok bs) (hs : s.Through views n) (hclosed : Closed R views)
    (hviews : ∀ a ∈ views, Allowed R Known vs (a.buffer, a.rank))
    (harrays : ∀ a ∈ s.arrays n,
      Allowed R Known (bs.flatMap Block.registered) (a.buffer, a.rank)) :
    Block.CoveredAll R Known vs bs := by
  induction s generalizing n bs views vs with
  | done =>
    obtain rfl := Except.ok.inj h
    trivial
  | statement s rest ih =>
    obtain ⟨cs, hcs, h⟩ := bind_eq_ok_iff.1 h
    obtain rfl := Except.ok.inj h
    have hnone : s.block.registered = [] := by cases s <;> rfl
    rw [List.flatMap_cons, hnone, List.nil_append] at harrays
    refine ⟨Statement.covered hclosed hviews hs.1, ?_⟩
    rw [hnone, List.nil_append]
    exact ih hcs hs.2 hclosed hviews harrays
  | loop kind decl parts _ body rest ihb ihr =>
    obtain ⟨inside, hinside, h⟩ := bind_eq_ok_iff.1 h
    obtain ⟨b, hb, h⟩ := bind_eq_ok_iff.1 h
    obtain ⟨cs, hcs, h⟩ := bind_eq_ok_iff.1 h
    obtain rfl := Except.ok.inj h
    obtain ⟨hranges, hsbody, hsrest⟩ := hs
    rw [List.flatMap_cons] at harrays
    have hbody : ∀ a ∈ body.arrays (n + parts.length),
        Allowed R Known b.registered (a.buffer, a.rank) := fun a ha =>
      allowed_of_lt hcs (id_arrays ha).2 (harrays a (List.mem_append_right _ ha))
    have hrest : ∀ a ∈ rest.arrays (n + parts.length + body.count),
        Allowed R Known (cs.flatMap Block.registered) (a.buffer, a.rank) := fun a ha =>
      allowed_of_le (fun v hv => (id_registered hinside (registered_loops hb hv)).2)
        (id_arrays ha).1 (harrays a (List.mem_append_left _ ha))
    have hindices : ∀ i ∈ indices n parts, ∀ e ∈ i.range.exprs, e.Only (Allowed R Known vs) := by
      intro i hi e he
      obtain ⟨p, hp, hrange⟩ := exists_range_of_mem_indices hi
      exact (hranges p hp e (hrange ▸ he)).only (hclosed.allowed hviews)
    have hcovered := ihb hinside hsbody hclosed hviews fun a ha =>
      (hbody a ha).mono fun v => registered_loops hb
    refine ⟨covered_loops hb hindices (Block.covered_ofList hcovered),
      ihr hcs hsrest (hclosed.arrays hsbody) (List.forall_mem_append.2 ⟨fun a ha => ?_,
        fun a ha => ?_⟩) hrest⟩
    · exact (hbody a ha).mono fun v => List.mem_append_left _
    · exact (hviews a ha).mono fun v => List.mem_append_right _
  | buffer shape storage type name body rest ihb ihr =>
    obtain ⟨inside, hinside, h⟩ := bind_eq_ok_iff.1 h
    obtain ⟨cs, hcs, h⟩ := bind_eq_ok_iff.1 h
    obtain rfl := Except.ok.inj h
    obtain ⟨hshape, hsbody, hsrest⟩ := hs
    rw [List.flatMap_cons, Block.registered_alloc_ofList] at harrays
    have hroot : ∀ ws, Allowed R Known (Block.addBuffer ⟨n, name, type⟩ shape ws)
        (⟨n, name, type⟩, shape.length) := fun ws =>
      Block.allowed_addBuffer hlow (harrays _ (List.mem_append_right _ (List.mem_append_right _
        (List.mem_singleton_self _))))
    have hbody : ∀ a ∈ body.arrays (n + 1),
        Allowed R Known (inside.flatMap Block.registered) (a.buffer, a.rank) := fun a ha => by
      have h := allowed_of_lt hcs (id_arrays ha).2
        (harrays a (List.mem_append_right _ (List.mem_append_left _ ha)))
      exact allowed_of_mem_addBuffer (id_arrays ha).1 h
    have hrest : ∀ a ∈ rest.arrays (n + 1 + body.count),
        Allowed R Known (cs.flatMap Block.registered) (a.buffer, a.rank) := fun a ha =>
      allowed_of_le (fun v hv => by
        rcases Block.mem_addBuffer_iff.1 hv with ⟨-, rfl⟩ | hv
        · show n < _
          omega
        · exact (id_registered hinside hv).2)
        (id_arrays ha).1 (harrays a (List.mem_append_left _ ha))
    have hcovered := ihb hinside hsbody (hclosed.cons hshape)
      (forall_allowed_cons storage (hroot vs) hviews) hbody
    refine ⟨⟨fun d hd => (hshape d hd).only (hclosed.allowed hviews),
      Block.covered_ofList hcovered⟩, ?_⟩
    rw [Block.registered_alloc_ofList]
    refine ihr hcs hsrest ((hclosed.cons hshape).arrays hsbody) ?_ hrest
    refine List.forall_mem_append.2 ⟨fun a ha => ?_, List.forall_mem_cons.2 ⟨?_, fun a ha => ?_⟩⟩
    · exact (hbody a ha).mono fun v hv =>
        List.mem_append_left _ (Block.mem_addBuffer_iff.2 (.inr hv))
    · exact (hroot _).mono fun v => List.mem_append_left _
    · exact (hviews a ha).mono fun v => List.mem_append_right _
  | allocate shape storage type name rest ih =>
    obtain ⟨inside, hinside, h⟩ := bind_eq_ok_iff.1 h
    obtain rfl := Except.ok.inj h
    obtain ⟨hshape, hs⟩ := hs
    rw [List.flatMap_singleton, Block.registered_alloc_ofList] at harrays
    have hroot : Allowed R Known (Block.addBuffer ⟨n, name, type⟩ shape vs)
        (⟨n, name, type⟩, shape.length) :=
      Block.allowed_addBuffer hlow (harrays _ (List.mem_append_right _ (List.mem_singleton_self _)))
    have hrest : ∀ a ∈ rest.arrays (n + 1),
        Allowed R Known (inside.flatMap Block.registered) (a.buffer, a.rank) := fun a ha =>
      allowed_of_mem_addBuffer (id_arrays ha).1 (harrays a (List.mem_append_left _ ha))
    have hcovered := ih hinside hs (hclosed.cons hshape)
      (forall_allowed_cons storage hroot hviews) hrest
    exact ⟨⟨fun d hd => (hshape d hd).only (hclosed.allowed hviews),
      Block.covered_ofList hcovered⟩, trivial⟩
  | letVar name value rest ih =>
    obtain ⟨inside, hinside, h⟩ := bind_eq_ok_iff.1 h
    obtain rfl := Except.ok.inj h
    obtain ⟨hvalue, hs⟩ := hs
    have hvalue : value.Only (Allowed R Known vs) := hvalue.only (hclosed.allowed hviews)
    have hinner : ∀ a ∈ rest.arrays (n + 1),
        Allowed R Known (inside.flatMap Block.registered) (a.buffer, a.rank) := fun a ha => by
      have h := harrays a ha
      rw [List.flatMap_singleton, Block.registered, Block.registered_ofList] at h
      exact h
    have hcovered := ih hinside hs hclosed hviews hinner
    exact ⟨⟨List.forall_mem_singleton.2 hvalue, Block.covered_ofList hcovered⟩, trivial⟩

end Script

end

end LoopNest
