import LoopNest.Text.Hidden

/-!
# Quoted text

A text between double quotes, on one line and with every character visible. The quote and the
backslash stand behind a backslash, four controls have letters, and a hidden character is written by
its number.

* `Text.escape`: the written form of one character;
* `Text.quote`: the written form of a text.
-/

namespace LoopNest.Text

/-- The lower-case hexadecimal digits of `n`, without leading zeros. -/
def hex (n : Nat) : List Char := Nat.toDigits 16 n

/-- The written form of a character inside double quotes. -/
def escape (c : Char) : List Char :=
  if c = '\x00' then ['\\', '0']
  else if c = '\t' then ['\\', 't']
  else if c = '\n' then ['\\', 'n']
  else if c = '\r' then ['\\', 'r']
  else if c = '"' then ['\\', '"']
  else if c = '\\' then ['\\', '\\']
  else if isHidden c then '\\' :: 'u' :: '\x7b' :: (hex c.toNat ++ ['\x7d'])
  else [c]

/-- The written form of a text, with its quotes. -/
def quote (s : String) : String :=
  String.ofList ('"' :: (s.toList.flatMap escape ++ ['"']))

end LoopNest.Text
