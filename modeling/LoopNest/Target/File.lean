import LoopNest.Json.Reader
import LoopNest.Target.Basic
import LoopNest.Text.Blank

/-!
# Target files

A target is described by a JSON object with one field for each of its properties. A field that is
missing has the value of the portable target, an unknown field is passed over, and a known one must
not come twice. A list of the values in order is read too; what is missing at its end is taken from
the portable target. The name must not be blank, and the indentation not zero.

* `Dialect.toJson`, `Target.toJson`: a target as JSON;
* `Dialect.ofJson?`, `Target.ofJson?`: a target from JSON;
* `Target.check`, `Target.parse`, `Target.load`: a target from a text, and from a file.
-/

namespace LoopNest

/-! ## Writing -/

/-- The name of a dialect. -/
def Dialect.text : Dialect → String
  | c => "c"
  | armM => "arm_m"

/-- A target as a JSON object. -/
def Target.toJson (t : Target) : Json :=
  .object [
    ("name", .text t.name),
    ("display_name", .text t.displayName),
    ("dialect", .text t.dialect.text),
    ("includes", .arr (t.includes.map Json.text)),
    ("index_type", .text t.indexType),
    ("float16_type", .text t.float16Type),
    ("restrict_keyword", .text t.restrictKeyword),
    ("supports_zigzag", .bool t.supportsZigzag),
    ("indent_width", .int t.indentWidth.toNat)]

/-! ## Reading -/

namespace Json

/-- A text. -/
def asText? : Json → Option String
  | str s => s
  | _ => none

/-- A list of texts. -/
def asTexts? : Json → Option (List String)
  | arr items => items.mapM asText?
  | _ => none

/-- A truth value. -/
def asBool? : Json → Option Bool
  | bool b => some b
  | _ => none

/-- A natural number below two to the sixty-fourth. -/
def asSize? : Json → Option UInt64
  | int n => if 0 ≤ n ∧ n < 0x10000000000000000 then some (UInt64.ofNat n.toNat) else none
  | _ => none

end Json

/-- A dialect by its name. -/
def Dialect.ofText? (s : String) : Option Dialect :=
  if s = "c" then some .c else if s = "arm_m" then some .armM else none

/-- A dialect: its name, or an object with the name as its only key and `null` as the value. -/
def Dialect.ofJson? : Json → Option Dialect
  | .str (some s) => ofText? s
  | .obj [(some s, .null)] => ofText? s
  | _ => none

namespace Target

/-- Names of the properties, in order. -/
def fieldNames : List String :=
  ["name", "display_name", "dialect", "includes", "index_type", "float16_type",
    "restrict_keyword", "supports_zigzag", "indent_width"]

/-- Set the property of a given name. None if the value does not suit, or there is no such
property. -/
def set? (t : Target) (field : String) (v : Json) : Option Target :=
  match field with
  | "name" => v.asText?.map fun x => { t with name := x }
  | "display_name" => v.asText?.map fun x => { t with displayName := x }
  | "dialect" => (Dialect.ofJson? v).map fun x => { t with dialect := x }
  | "includes" => v.asTexts?.map fun x => { t with includes := x }
  | "index_type" => v.asText?.map fun x => { t with indexType := x }
  | "float16_type" => v.asText?.map fun x => { t with float16Type := x }
  | "restrict_keyword" => v.asText?.map fun x => { t with restrictKeyword := x }
  | "supports_zigzag" => v.asBool?.map fun x => { t with supportsZigzag := x }
  | "indent_width" => v.asSize?.map fun x => { t with indentWidth := x }
  | _ => none

/-- Set the properties that fields name, passing over unknown names. `left` holds the names that may
still come. -/
def setFields? (t : Target) (left : List String) : List (Option String × Json) → Option Target
  | [] => some t
  | (none, _) :: _ => none
  | (some k, v) :: fields =>
    if k ∈ left then
      match t.set? k v with
      | none => none
      | some t => t.setFields? (left.erase k) fields
    else if k ∈ fieldNames then none
    else t.setFields? left fields

/-- Set properties in order. There may be fewer values than properties, but not more. -/
def setItems? (t : Target) : List String → List Json → Option Target
  | _, [] => some t
  | [], _ :: _ => none
  | k :: ks, v :: vs =>
    match t.set? k v with
    | none => none
    | some t => t.setItems? ks vs

/-- A target from JSON. What is not given is taken from the portable target. -/
def ofJson? : Json → Option Target
  | .obj fields => portable.setFields? fieldNames fields
  | .arr items => portable.setItems? fieldNames items
  | _ => none

/-- The name must not be blank, and the indentation not zero. -/
def check (t : Target) : Except TargetFileFault Target :=
  if Text.allBlank t.name then .error .emptyName
  else if t.indentWidth = 0 then .error .zeroIndent
  else .ok t

/-- A target from the text of its file. -/
def parse (s : String) : Except TargetFileFault Target :=
  match Json.read? s with
  | none => .error (.malformed "not a JSON value")
  | some v =>
    match ofJson? v with
    | none => .error (.malformed "not a target description")
    | some t => t.check

/-- A target from the content of its file, or the reason why there is none. -/
def parseFile : Except String ByteArray → Except TargetFileFault Target
  | .error reason => .error (.unreadable reason)
  | .ok bytes =>
    match String.fromUTF8? bytes with
    | none => .error (.unreadable "stream did not contain valid UTF-8")
    | some s => parse s

/-- A target from a file. -/
def load (path : String) (content : Except String ByteArray) : Except Error Target :=
  (parseFile content).mapError fun fault => .configuration (.targetFile path fault)

end Target

end LoopNest
