import LoopNest.Error

/-!
# Targets

A target says how a kernel is spelled in C: the headers, the type names, the indentation, and
whether zigzag loops can be expressed. Two targets are built in.

* `Dialect`, `Target`, `Target.portable`, `Target.cortexM`;
* `Target.builtin`, `Target.named?`, `Target.named`: targets by name;
* `Target.spell`: the spelling of an element type.
-/

namespace LoopNest

/-- The dialect of a target: plain C, or C for Arm Cortex-M with its own headers. -/
inductive Dialect where
  | c
  | armM
deriving DecidableEq

/-- How kernels are spelled. -/
structure Target where
  /-- The short name. -/
  name : String
  /-- The name for people. -/
  displayName : String
  dialect : Dialect
  /-- Headers, included in order. -/
  includes : List String
  /-- The type of loop counters. -/
  indexType : String
  /-- The type of half-precision elements. -/
  float16Type : String
  /-- A qualifier on buffer parameters; empty to have none. -/
  restrictKeyword : String
  /-- Zigzag loops can be emitted. They run in the declared direction. -/
  supportsZigzag : Bool
  /-- Blanks for each level of indentation. -/
  indentWidth : UInt64
deriving DecidableEq

namespace Target

/-- Portable C. -/
def portable : Target where
  name := "c"
  displayName := "Portable C"
  dialect := .c
  includes := ["stdint.h", "stdbool.h"]
  indexType := "int32_t"
  float16Type := "_Float16"
  restrictKeyword := "restrict"
  supportsZigzag := true
  indentWidth := 2

/-- C for Arm Cortex-M. -/
def cortexM : Target where
  name := "arm_m"
  displayName := "Arm Cortex-M"
  dialect := .armM
  includes := ["stdint.h", "stdbool.h", "arm_math.h"]
  indexType := "int32_t"
  float16Type := "float16_t"
  restrictKeyword := "__restrict"
  supportsZigzag := false
  indentWidth := 4

/-- The built-in targets. -/
def builtin : List Target := [portable, cortexM]

/-- A built-in target by its name or an alias. -/
def named? (name : String) : Option Target :=
  if name = "c" then some portable
  else if name = "arm_m" ∨ name = "arm-m" ∨ name = "cortex-m" then some cortexM
  else none

/-- A built-in target, which must exist. -/
def named (name : String) : Except Error Target :=
  match named? name with
  | some t => .ok t
  | none => .error (.unsupportedTarget name)

/-- The spelling of an element type. -/
def spell (t : Target) : ElemType → String
  | .bool => "bool"
  | .int8 => "int8_t"
  | .int16 => "int16_t"
  | .int32 => "int32_t"
  | .int64 => "int64_t"
  | .uint8 => "uint8_t"
  | .uint16 => "uint16_t"
  | .uint32 => "uint32_t"
  | .uint64 => "uint64_t"
  | .float16 => t.float16Type
  | .float32 => "float"
  | .float64 => "double"

end Target

end LoopNest
