/-
Quoted text. The quote, the backslash and five control characters have an escape of their own; a character that extends
the one before it, or cannot be shown, is written by its code point; every other character stands for itself.
-/
import Spirv.Text.Extending

namespace Spirv.Text

/-- a character by its code point, in base 16 -/
def codePoint (c : Char) : List Char :=
  ['\\', 'u', '\x7b'] ++ Nat.toDigits 16 c.toNat ++ ['\x7d']

/-- printable ASCII, which most text consists of -/
def isPlainAscii (c : Char) : Bool := 0x20 ≤ c.toNat && c.toNat < 0x7f

/-- a character inside quotes -/
def escape (c : Char) : List Char :=
  if c = '\x00' then ['\\', '0']
  else if c = '\t' then ['\\', 't']
  else if c = '\r' then ['\\', 'r']
  else if c = '\n' then ['\\', 'n']
  else if c = '"' then ['\\', '"']
  else if c = '\\' then ['\\', '\\']
  else if isPlainAscii c then [c]
  else if isExtending c || isUnprintable c then codePoint c
  else [c]

/-- the text between quotes -/
def quoted (s : String) : String := .ofList ('"' :: s.toList.flatMap escape ++ ['"'])

end Spirv.Text
