import LoopNest.Kernel.Build

/-!
# Demonstration kernels

Four small kernels. Two of them have a size.

* `Demo.fill`: a local array filled by an unrolled loop, and one element of it stored;
* `Demo.relu`: the greater of each element and zero, over a length known only when it runs;
* `Demo.gemm`: the product of two matrices, each element accumulated in a local array;
* `Demo.zigzag`: a copy by a zigzag loop;
* `Demo.named`: a kernel by its name.
-/

namespace LoopNest.Demo

/-- A demonstration kernel needs nothing but its trace. -/
abbrev Recipe := Definition Id

/-- Parameter number `id`, a single-precision buffer. -/
def buffer (id : Nat) (name : String) (shape : List Expr) : Buffer := ⟨⟨id, name, .float32⟩, shape⟩

/-- Store to an element. -/
def store (target : View) (position : List Expr) (value : Expr) : Tracing Id Unit :=
  Tracing.act fun t => t.store target (position.map Selector.at) value

/-- Read an element. -/
def element (source : View) (position : List Expr) : Tracing Id Expr :=
  Tracing.ofExcept (source.element (position.map Selector.at))

/-- Allocate a local single-precision array. -/
def scratch (name : String) (shape : List Expr) : Tracing Id View :=
  Tracing.op fun t => t.allocate shape "local" .float32 name

/-- Fill an array of two by two with ones, and store its first element. -/
def fill : Recipe where
  fresh := 1
  signature := ⟨"fill", [buffer 0 "out" [.int 1]], []⟩
  options := .standard
  body views _ := do
    let buf ← scratch "buf" [.int 2, .int 2]
    Tracing.forEach .unroll ⟨some ["i", "j"], some [.upTo 0 2, .upTo 0 2], none⟩ fun v =>
      store buf (v.map Expr.var) (.float .one)
    let first ← element buf [.int 0, .int 0]
    match views with
    | [out] => store out [.int 0] first
    | _ => return

/-- Store the greater of `x[i]` and zero to `out[i]`, for every `i` below the scalar `len`. -/
def relu : Recipe :=
  let len : Var := ⟨0, "len", .int32⟩
  { fresh := 3
    signature := ⟨"relu", [buffer 1 "x" [len], buffer 2 "out" [len]], [len]⟩
    options := .standard
    body := fun views scalars => do
      match views, scalars with
      | [x, out], [len] =>
        Tracing.forEach .spatial ⟨some ["i"], some [⟨.int 0, len, .int 1⟩], some ["x"]⟩ fun v => do
          let value ← element x (v.map Expr.var)
          store out (v.map Expr.var) (.binary .max value (.float .zero))
      | _, _ => return }

/-- Store the product of `A`, of `m` by `k`, and `B`, of `k` by `n`, to `C`. -/
def gemm (m n k : Word) : Recipe where
  fresh := 3
  signature := ⟨"gemm",
    [buffer 0 "A" [.int m, .int k], buffer 1 "B" [.int k, .int n], buffer 2 "C" [.int m, .int n]],
    []⟩
  options := .standard
  body views _ := do
    match views with
    | [a, b, c] =>
      let outer : LoopDecl := ⟨some ["i", "j"], some [.upTo 0 m, .upTo 0 n], some ["y", "x"]⟩
      Tracing.forEach .spatial outer fun v => do
        match v with
        | [i, j] => do
          let acc ← scratch "acc" [.int 1]
          store acc [.int 0] (.float .zero)
          Tracing.forEach .reduce (.one "k" (.upTo 0 k)) fun r => do
            match r with
            | [t] => do
              let x ← element a [i, t]
              let y ← element b [t, j]
              let sum ← element acc [.int 0]
              store acc [.int 0] (sum + x * y)
            | _ => return
          let sum ← element acc [.int 0]
          store c [i, j] sum
        | _ => return
    | _ => return

/-- Copy `n` elements. -/
def zigzag (n : Word) : Recipe where
  fresh := 2
  signature := ⟨"zigzag", [buffer 0 "src" [.int n], buffer 1 "dst" [.int n]], []⟩
  options := .standard
  body views _ := do
    match views with
    | [src, dst] =>
      Tracing.forEach .zigzag (.one "i" (.upTo 0 n)) fun v => do
        let value ← element src (v.map Expr.var)
        store dst (v.map Expr.var) value
    | _ => return

/-- The names of the kernels, in order. -/
def names : List String := ["fill", "relu", "gemm", "zigzag"]

/-- A kernel by its name, of a positive size. -/
def named (name : String) (size : Word) : Except Error Recipe :=
  if size ≤ 0 then .error (.configuration (.demoSize size))
  else if name = "fill" then .ok fill
  else if name = "relu" then .ok relu
  else if name = "gemm" then .ok (gemm size size size)
  else if name = "zigzag" then .ok (zigzag size)
  else .error (.configuration (.unknownDemo name names))

end LoopNest.Demo
