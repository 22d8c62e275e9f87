import LoopNest.Range

/-!
# What can go wrong

Every failure is a cause, holding the values it is about. The wording is in one place.

* `ScopeName`: what a message says of a scope;
* `ConfigurationFault`, `BoundsFault`, `OperationFault`, `Construct`, `StackFault`: the causes;
* `Error`, `Error.kind`, `Error.message`.
-/

namespace LoopNest

/-! ## Scopes as they are named in messages -/

/-- What a message says of a scope. -/
inductive ScopeName where
  | root
  | alloc (buffer : Var)
  | loop (kind : LoopKind) (vars : List Var)
  | bind (vars : List Var)
  | statement
deriving DecidableEq

/-- The text of a scope's name. -/
def ScopeName.text : ScopeName → String
  | root => "root"
  | alloc v => "alloc " ++ v.text
  | loop k vs => k.text ++ " loop (" ++ Expr.commas (vs.map Var.text) ++ ")"
  | bind vs => "remap (" ++ Expr.commas (vs.map Var.text) ++ ")"
  | statement => "statement"

/-! ## Causes -/

/-- What is wrong with a target file. -/
inductive TargetFileFault where
  | unreadable (reason : String)
  | malformed (reason : String)
  | emptyName
  | zeroIndent
deriving DecidableEq

/-- A malformed loop, slice, kernel, demonstration or target. -/
inductive ConfigurationFault where
  | unknownType (name : String)
  | noNames
  | noRanges
  | rangeCount (names ranges : Nat)
  | noIndices
  | tagCount (names tags : Nat)
  | sliceStep (step : Word) (dim : Nat)
  | sliceOverflow (start stop : Word) (dim : Nat)
  | topLevelCount (found : Nat)
  | negativeExtent (var : Var) (extent : Word)
  | copyOverflow (var : Var) (copy : Int) (step : Word)
  | demoSize (size : Word)
  | unknownDemo (name : String) (known : List String)
  | targetFile (path : String) (fault : TargetFileFault)
deriving DecidableEq

/-- A literal position outside a dimension of literal extent. -/
inductive BoundsFault where
  | index (i extent : Word)
  | slice (start stop extent : Word)
  | emptySlice (start stop : Word)
deriving DecidableEq

/-- An operation that is refused on purpose. -/
inductive OperationFault where
  | allPositions
  | partialLoad
  | partialStore
  | fill (buffer : Var)
  | wholeLoad (buffer : Var) (rank : Nat)
  | dynamicUnroll (var : Var) (range : Range)
deriving DecidableEq

/-- A part of a statement tree that a target cannot express. -/
inductive Construct where
  | zigzag (var : Var)
  | zeroStep (var : Var)
  | symbolicStep (var : Var) (step : Expr)
  | manyIndices (count : Nat) (buffer : Var)
  | floatDivision (op : Operator)
deriving DecidableEq

/-- A scope closed out of order, or left open. -/
inductive StackFault where
  | notOpen (id : Nat) (scope : ScopeName)
  | unknown (id : Nat)
  | root
  | innerOpen (scope inner : ScopeName)
  | leftOpen (scope : ScopeName)
deriving DecidableEq

/-- Why building, lowering or emitting a kernel failed. -/
inductive Error where
  | configuration (fault : ConfigurationFault)
  | shapeMismatch (expected found : Nat)
  | outOfBounds (dim : Nat) (fault : BoundsFault)
  | unsupportedOperation (fault : OperationFault)
  | unsupportedTarget (name : String)
  | unsupportedConstruct (target : String) (construct : Construct)
  | stackDiscipline (fault : StackFault)
deriving DecidableEq

/-- The seven kinds of error, without their causes. -/
inductive ErrorKind where
  | configuration
  | shapeMismatch
  | outOfBounds
  | unsupportedOperation
  | unsupportedTarget
  | unsupportedConstruct
  | stackDiscipline
deriving DecidableEq

/-- The kind of an error. -/
def Error.kind : Error → ErrorKind
  | configuration _ => .configuration
  | shapeMismatch _ _ => .shapeMismatch
  | outOfBounds _ _ => .outOfBounds
  | unsupportedOperation _ => .unsupportedOperation
  | unsupportedTarget _ => .unsupportedTarget
  | unsupportedConstruct _ _ => .unsupportedConstruct
  | stackDiscipline _ => .stackDiscipline

/-! ## Wording -/

/-- The message about a target file. -/
def TargetFileFault.text (path : String) : TargetFileFault → String
  | unreadable reason => "cannot read target config '" ++ path ++ "': " ++ reason
  | malformed reason => path ++ ": " ++ reason
  | emptyName => path ++ ": target name must not be empty"
  | zeroIndent => path ++ ": indent_width must be at least 1"

/-- The message about a malformed description. -/
def ConfigurationFault.text : ConfigurationFault → String
  | unknownType name => "unknown dtype '" ++ name ++ "'"
  | noNames => "loops must be declared with names"
  | noRanges => "loops must be declared with ranges"
  | rangeCount names ranges => toString names ++ " loop names but " ++ toString ranges ++ " ranges"
  | noIndices => "loop scope declares no indices"
  | tagCount names tags => toString names ++ " loop names but " ++ toString tags ++ " bindings"
  | sliceStep step dim =>
    "slice step must be positive, got " ++ Word.text step ++ " in dimension " ++ toString dim
  | sliceOverflow start stop dim =>
    "slice " ++ Word.text start ++ ":" ++ Word.text stop ++ " in dimension " ++ toString dim ++
      " overflows"
  | topLevelCount found =>
    "kernel trace must have exactly one top-level scope, found " ++ toString found
  | negativeExtent v extent =>
    "unroll loop " ++ v.text ++ " has negative extent " ++ Word.text extent
  | copyOverflow v copy step =>
    "unroll loop " ++ v.text ++ " overflows i64 at copy " ++ toString copy ++ " (step " ++
      Word.text step ++ ")"
  | demoSize size => "demo size must be positive, got " ++ Word.text size
  | unknownDemo name known =>
    "unknown demo '" ++ name ++ "' (available: " ++ Expr.commas known ++ ")"
  | targetFile path fault => fault.text path

/-- The message about a position. -/
def BoundsFault.text : BoundsFault → String
  | index i extent => "index " ++ Word.text i ++ " not in [0, " ++ Word.text extent ++ ")"
  | slice start stop extent =>
    "slice " ++ Word.text start ++ ":" ++ Word.text stop ++ " not within [0, " ++
      Word.text extent ++ "]"
  | emptySlice start stop => "slice " ++ Word.text start ++ ":" ++ Word.text stop ++ " is empty"

/-- The message about a refused operation. -/
def OperationFault.text : OperationFault → String
  | allPositions => "every key is scalar: the result is an element, not a view"
  | partialLoad => "load through a partially indexed view"
  | partialStore => "store into a partially indexed view"
  | fill v => "fill of buffer " ++ v.text ++ " with a constant"
  | wholeLoad v rank => "whole-view load of buffer " ++ v.text ++ " (rank " ++ toString rank ++ ")"
  | dynamicUnroll v range => "cannot unroll loop " ++ v.text ++ " over dynamic " ++ range.text

/-- The message about a construct. -/
def Construct.text : Construct → String
  | zigzag v => "zigzag loop over " ++ v.text
  | zeroStep v => "zero-step loop over " ++ v.text
  | symbolicStep v step => "loop over " ++ v.text ++ " with symbolic step " ++ step.text
  | manyIndices count v =>
    toString count ++ "-index access to buffer " ++ v.text ++ " (flatten the kernel first)"
  | floatDivision op => op.symbol ++ " on floating-point operands"

/-- The message about the order of scopes. -/
def StackFault.text : StackFault → String
  | notOpen id scope => "scope #" ++ toString id ++ " (" ++ scope.text ++ ") is not open"
  | unknown id => "scope #" ++ toString id ++ " does not belong to this builder"
  | root => "the root scope cannot be closed"
  | innerOpen scope inner =>
    "cannot close " ++ scope.text ++ " while " ++ inner.text ++ " is still open"
  | leftOpen scope => scope.text ++ " was never closed"

/-- The message of an error. -/
def Error.message : Error → String
  | configuration fault => "configuration error: " ++ fault.text
  | shapeMismatch expected found =>
    "shape mismatch: expected " ++ toString expected ++ " index keys, found " ++ toString found
  | outOfBounds dim fault =>
    "index out of bounds in dimension " ++ toString dim ++ ": " ++ fault.text
  | unsupportedOperation fault => "unsupported operation: " ++ fault.text
  | unsupportedTarget name => "unsupported target '" ++ name ++ "'"
  | unsupportedConstruct target construct =>
    "target '" ++ target ++ "' cannot emit " ++ construct.text
  | stackDiscipline fault => "scope stack discipline violated: " ++ fault.text

/-! ## Steps that may fail -/

theorem bind_eq_ok_iff {ε α β : Type} {x : Except ε α} {f : α → Except ε β} {b : β} :
    x >>= f = .ok b ↔ ∃ a, x = .ok a ∧ f a = .ok b := by
  cases x with
  | error e => exact ⟨fun h => (nomatch h), fun ⟨_, h, _⟩ => (nomatch h)⟩
  | ok a => exact ⟨fun h => ⟨a, rfl, h⟩, fun ⟨_, ha, h⟩ => Except.ok.inj ha ▸ h⟩

theorem bind_eq_error_iff {ε α β : Type} {x : Except ε α} {f : α → Except ε β} {e : ε} :
    x >>= f = .error e ↔ x = .error e ∨ ∃ a, x = .ok a ∧ f a = .error e := by
  cases x with
  | error d =>
    refine ⟨fun h => .inl (congrArg _ (Except.error.inj h)), ?_⟩
    rintro (h | ⟨_, h, _⟩)
    · exact congrArg _ (Except.error.inj h)
    · exact nomatch h
  | ok a =>
    refine ⟨fun h => .inr ⟨a, rfl, h⟩, ?_⟩
    rintro (h | ⟨_, ha, h⟩)
    · exact nomatch h
    · exact Except.ok.inj ha ▸ h

end LoopNest
