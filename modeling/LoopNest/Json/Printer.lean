import LoopNest.Json.Basic

/-!
# The text of a JSON value

A value is written on one line without blanks, or with one item a line and two blanks of indentation
for each level. Controls, the quote and the backslash are escaped in strings, and nothing else is.

* `Json.quote`: a string literal;
* `Json.compact`, `Json.pretty`: the two forms of a value.
-/

namespace LoopNest.Json

/-- A hexadecimal digit. -/
def hexDigit (n : Nat) : Char := Nat.digitChar (n % 16)

/-- The written form of a character inside quotes. -/
def escape (c : Char) : List Char :=
  if c = '"' then ['\\', '"']
  else if c = '\\' then ['\\', '\\']
  else if c = '\x08' then ['\\', 'b']
  else if c = '\x0c' then ['\\', 'f']
  else if c = '\n' then ['\\', 'n']
  else if c = '\r' then ['\\', 'r']
  else if c = '\t' then ['\\', 't']
  else if c.toNat < 0x20 then ['\\', 'u', '0', '0', hexDigit (c.toNat / 16), hexDigit c.toNat]
  else [c]

/-- A string literal. Without a text it is half of a surrogate pair. -/
def quote : Option String → String
  | some s => String.ofList ('"' :: (s.toList.flatMap escape ++ ['"']))
  | none => "\"\\ud800\""

/-- The truth values. -/
def boolText (b : Bool) : String := if b then "true" else "false"

mutual

/-- The text of a value on one line. -/
def compact : Json → String
  | null => "null"
  | bool b => boolText b
  | int n => toString n
  | decimal s => s
  | str s => quote s
  | arr items => "[" ++ ",".intercalate (compactItems items) ++ "]"
  | obj fields => "\x7b" ++ ",".intercalate (compactFields fields) ++ "\x7d"

/-- The texts of items. -/
def compactItems : List Json → List String
  | [] => []
  | v :: vs => v.compact :: compactItems vs

/-- The texts of fields. -/
def compactFields : List (Option String × Json) → List String
  | [] => []
  | (k, v) :: fs => (quote k ++ ":" ++ v.compact) :: compactFields fs

end

/-- A new line, indented. -/
def newline (depth : Nat) : String := String.ofList ('\n' :: List.replicate (2 * depth) ' ')

/-- Items each on a line of its own between brackets; nothing between them if there is none. -/
def enclosed (left right : String) (depth : Nat) (items : List String) : String :=
  if items.isEmpty then left ++ right
  else
    left ++ newline (depth + 1) ++ ("," ++ newline (depth + 1)).intercalate items ++
      newline depth ++ right

mutual

/-- The text of a value on many lines, at a depth. -/
def prettyAt (depth : Nat) : Json → String
  | null => "null"
  | bool b => boolText b
  | int n => toString n
  | decimal s => s
  | str s => quote s
  | arr items => enclosed "[" "]" depth (prettyItems (depth + 1) items)
  | obj fields => enclosed "\x7b" "\x7d" depth (prettyFields (depth + 1) fields)

/-- The texts of items, at a depth. -/
def prettyItems (depth : Nat) : List Json → List String
  | [] => []
  | v :: vs => v.prettyAt depth :: prettyItems depth vs

/-- The texts of fields, at a depth. -/
def prettyFields (depth : Nat) : List (Option String × Json) → List String
  | [] => []
  | (k, v) :: fs => (quote k ++ ": " ++ v.prettyAt depth) :: prettyFields depth fs

end

/-- The text of a value on many lines. -/
def pretty (v : Json) : String := v.prettyAt 0

end LoopNest.Json
