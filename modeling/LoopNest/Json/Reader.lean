import LoopNest.Json.Basic

/-!
# Reading JSON

The grammar of the standard: no comments, no trailing commas, no leading zeros, no raw controls in
strings. Blanks between tokens are the blank, the tab, the line feed and the carriage return.

* `Json.Piece`, `Json.pieces`, `Json.join?`: string literals, with their surrogate pairs joined;
* `Json.number`: numbers;
* `Json.value`: a value and what follows it;
* `Json.read?`: a text that holds one value.
-/

namespace LoopNest.Json

/-! ## Blanks and digits -/

/-- A blank between tokens. -/
def isSpace (c : Char) : Bool := c = ' ' || c = '\t' || c = '\n' || c = '\r'

/-- Skip blanks. -/
def skip (cs : List Char) : List Char := cs.dropWhile isSpace

/-- The value of a hexadecimal digit. -/
def hexValue? (c : Char) : Option Nat :=
  if '0' ≤ c ∧ c ≤ '9' then some (c.toNat - '0'.toNat)
  else if 'a' ≤ c ∧ c ≤ 'f' then some (c.toNat - 'a'.toNat + 10)
  else if 'A' ≤ c ∧ c ≤ 'F' then some (c.toNat - 'A'.toNat + 10)
  else none

/-- The value of four hexadecimal digits. -/
def hexFour? (a b c d : Char) : Option Nat := do
  let a ← hexValue? a
  let b ← hexValue? b
  let c ← hexValue? c
  let d ← hexValue? d
  return ((a * 16 + b) * 16 + c) * 16 + d

/-! ## Strings -/

/-- A part of a string literal: a character, or one half of a surrogate pair. -/
inductive Piece where
  | char (c : Char)
  | half (n : Nat)
deriving DecidableEq

/-- The piece of a numbered escape. -/
def Piece.ofCode (n : Nat) : Piece :=
  if 0xd800 ≤ n ∧ n < 0xe000 then half n else char (Char.ofNat n)

/-- The character of a one-letter escape. -/
def shortEscape? (c : Char) : Option Char :=
  if c = '"' then some '"'
  else if c = '\\' then some '\\'
  else if c = '/' then some '/'
  else if c = 'b' then some '\x08'
  else if c = 'f' then some '\x0c'
  else if c = 'n' then some '\n'
  else if c = 'r' then some '\r'
  else if c = 't' then some '\t'
  else none

/-- The pieces up to the closing quote, and what follows it. -/
def pieces : List Char → Option (List Piece × List Char)
  | [] => none
  | '"' :: rest => some ([], rest)
  | '\\' :: 'u' :: a :: b :: c :: d :: rest => do
    let n ← hexFour? a b c d
    let (ps, rest) ← pieces rest
    return (.ofCode n :: ps, rest)
  | '\\' :: e :: rest => do
    let c ← shortEscape? e
    let (ps, rest) ← pieces rest
    return (.char c :: ps, rest)
  | c :: rest => do
    if c.toNat < 0x20 ∨ c = '\\' then none
    let (ps, rest) ← pieces rest
    return (.char c :: ps, rest)

/-- The characters of pieces. Halves must come in pairs, the high one first. -/
def join? : List Piece → Option (List Char)
  | [] => some []
  | .char c :: ps => (join? ps).map (c :: ·)
  | .half h :: .half l :: ps =>
    if h < 0xdc00 ∧ 0xdc00 ≤ l then
      (join? ps).map (Char.ofNat (0x10000 + (h - 0xd800) * 0x400 + (l - 0xdc00)) :: ·)
    else none
  | .half _ :: _ => none

/-- A string literal after its opening quote. -/
def literal (cs : List Char) : Option (Option String × List Char) := do
  let (ps, rest) ← pieces cs
  return ((join? ps).map String.ofList, rest)

/-! ## Numbers -/

/-- The value of decimal digits. -/
def digitsValue (ds : List Char) : Nat := ds.foldl (fun n d => 10 * n + (d.toNat - '0'.toNat)) 0

/-- Digits, at least one, and what follows them. -/
def digits (cs : List Char) : Option (List Char × List Char) :=
  let ds := cs.takeWhile Char.isDigit
  if ds.isEmpty then none else some (ds, cs.dropWhile Char.isDigit)

/-- The whole part: zero alone, or digits that do not start with zero. -/
def whole : List Char → Option (List Char × List Char)
  | '0' :: rest => some (['0'], rest)
  | cs => digits cs

/-- A point with digits, if there is a point. -/
def fraction : List Char → Option (List Char × List Char)
  | '.' :: rest => do
    let (ds, rest) ← digits rest
    return ('.' :: ds, rest)
  | cs => some ([], cs)

/-- An exponent, if there is one. -/
def exponent : List Char → Option (List Char × List Char)
  | c :: rest =>
    if c = 'e' ∨ c = 'E' then
      let (sign, rest) := match rest with
        | '+' :: r => (['+'], r)
        | '-' :: r => (['-'], r)
        | r => ([], r)
      do
        let (ds, rest) ← digits rest
        return (c :: (sign ++ ds), rest)
    else some ([], c :: rest)
  | [] => some ([], [])

/-- A number. It is an integer if it has neither fraction nor exponent and is not minus zero. -/
def number (cs : List Char) : Option (Json × List Char) := do
  let (sign, cs) := match cs with
    | '-' :: rest => (['-'], rest)
    | cs => ([], cs)
  let (ds, cs) ← whole cs
  let (frac, cs) ← fraction cs
  let (expo, cs) ← exponent cs
  let n := digitsValue ds
  if frac.isEmpty && expo.isEmpty && (sign.isEmpty || n != 0) then
    return (.int (if sign.isEmpty then n else -n), cs)
  else return (.decimal (String.ofList (sign ++ ds ++ frac ++ expo)), cs)

/-! ## Values -/

mutual

/-- A value and what follows it, within `fuel` steps. -/
def value (fuel : Nat) (cs : List Char) : Option (Json × List Char) :=
  match fuel with
  | 0 => none
  | fuel + 1 =>
    match skip cs with
    | 'n' :: 'u' :: 'l' :: 'l' :: rest => some (.null, rest)
    | 't' :: 'r' :: 'u' :: 'e' :: rest => some (.bool true, rest)
    | 'f' :: 'a' :: 'l' :: 's' :: 'e' :: rest => some (.bool false, rest)
    | '"' :: rest => do
      let (s, rest) ← literal rest
      return (.str s, rest)
    | '[' :: rest =>
      match skip rest with
      | ']' :: rest => some (.arr [], rest)
      | cs => do
        let (items, rest) ← items fuel cs
        return (.arr items, rest)
    | '\x7b' :: rest =>
      match skip rest with
      | '\x7d' :: rest => some (.obj [], rest)
      | cs => do
        let (fields, rest) ← fields fuel cs
        return (.obj fields, rest)
    | cs => number cs

/-- Items up to the closing bracket, at least one. -/
def items (fuel : Nat) (cs : List Char) : Option (List Json × List Char) :=
  match fuel with
  | 0 => none
  | fuel + 1 => do
    let (v, rest) ← value fuel cs
    match skip rest with
    | ',' :: rest => do
      let (vs, rest) ← items fuel rest
      return (v :: vs, rest)
    | ']' :: rest => return ([v], rest)
    | _ => none

/-- Fields up to the closing brace, at least one. -/
def fields (fuel : Nat) (cs : List Char) : Option (List (Option String × Json) × List Char) :=
  match fuel with
  | 0 => none
  | fuel + 1 =>
    match skip cs with
    | '"' :: rest => do
      let (k, rest) ← literal rest
      match skip rest with
      | ':' :: rest => do
        let (v, rest) ← value fuel rest
        match skip rest with
        | ',' :: rest => do
          let (fs, rest) ← fields fuel rest
          return ((k, v) :: fs, rest)
        | '\x7d' :: rest => return ([(k, v)], rest)
        | _ => none
      | _ => none
    | _ => none

end

/-- The value that a text holds, with nothing but blanks around it. Two steps for each character are
enough. -/
def read? (s : String) : Option Json := do
  let cs := s.toList
  let (v, rest) ← value (2 * cs.length + 2) cs
  if (skip rest).isEmpty then return v else none

end LoopNest.Json
