import LoopNest.C.Stmt
import LoopNest.Expr.Vars

/-!
# Names in C

Variables get C identifiers in the order in which they first appear. An identifier comes from the
display name, with every character outside the alphabet replaced; one that is taken already gets the
first free number behind it. So the identifiers do not hang on the numbers of the variables.

* `C.identifier`: the identifier that a display name suggests;
* `C.Names`, `C.Names.reserve`, `C.Names.add`: handing out identifiers;
* `C.Stmt.vars`: the variables of a statement in order of appearance.
-/

namespace LoopNest

namespace C

/-! ## Identifiers -/

/-- A character that an identifier may hold. -/
def isNameChar (c : Char) : Bool := c.isAlphanum || c = '_'

/-- The identifier that a display name suggests. -/
def identifier (hint : String) : String :=
  match hint.toList.map fun c => if isNameChar c then c else '_' with
  | [] => "v"
  | c :: cs => String.ofList (if c.isDigit then '_' :: c :: cs else c :: cs)

/-- Candidate number `k` for a name: the name itself, then the name with a number behind it. -/
def candidate (base : String) : Nat → String
  | 0 => base
  | k + 1 => base ++ "_" ++ toString (k + 1)

/-- The first candidate from number `k` on that is not taken, among the next `n` and the one after
them. -/
def freeFrom (taken : List String) (base : String) : Nat → Nat → String
  | 0, k => candidate base k
  | n + 1, k =>
    if candidate base k ∈ taken then freeFrom taken base n (k + 1) else candidate base k

/-- The first candidate that is not taken. One of the first candidates is free, as there are more of
them than names taken. -/
def freeName (taken : List String) (base : String) : String := freeFrom taken base taken.length 0

/-! ## Handing out names -/

/-- Variables with their identifiers, and all identifiers in use. -/
structure Names where
  given : List (Var × String)
  taken : List String
deriving DecidableEq

namespace Names

/-- No name is in use. -/
def empty : Names := ⟨[], []⟩

/-- The identifier of a variable. -/
def find? (n : Names) (v : Var) : Option String :=
  (n.given.find? fun p => p.1 = v).map Prod.snd

/-- The identifier of a variable, which must have been added. -/
def of (n : Names) (v : Var) : String := (n.find? v).getD ""

/-- Take an identifier for something that is no variable. -/
def reserve (n : Names) (hint : String) : String × Names :=
  let name := freeName n.taken (identifier hint)
  (name, { n with taken := name :: n.taken })

/-- Give a variable an identifier unless it has one. -/
def add (n : Names) (v : Var) : Names :=
  match n.find? v with
  | some _ => n
  | none =>
    let (name, n) := n.reserve v.name
    { n with given := (v, name) :: n.given }

/-- Give variables identifiers in order. -/
def addAll (n : Names) (vs : List Var) : Names := vs.foldl add n

end Names

end C

/-! ## Order of appearance -/

/-- The variables of a C statement in order of appearance. -/
def C.Stmt.vars : C.Stmt → List Var
  | skip => []
  | seq a b => a.vars ++ b.vars
  | loop head body => head.var :: (head.first.vars ++ head.bound.vars ++ body.vars)
  | array v shape _ body => v :: (Expr.varsAll shape ++ body.vars)
  | consts bs body => bs.flatMap (fun b => b.value.vars ++ [b.var]) ++ body.vars
  | eval e => e.vars
  | assign v is e => v :: (Expr.varsAll is ++ e.vars)

end LoopNest
