import CudaToHip.Text.Extending
import CudaToHip.Text.Printable

/-!
# Quoted text

How a text is shown inside double quotes on one line: the quote and the backslash are escaped, and
so is every character that has no printed form of its own or would be drawn together with the one
before it, by its short name where it has one and by its code point otherwise.
-/

namespace CudaToHip.Text

/-- The code point in lowercase hexadecimal, without leading zeros. -/
def hexCode (c : Char) : List Char :=
  Nat.toDigits 16 c.toNat

/-- One character of a quoted text. -/
def quoteChar (c : Char) : List Char :=
  if c = '"' then ['\\', '"']
  else if c = '\\' then ['\\', '\\']
  else if c = '\n' then ['\\', 'n']
  else if c = '\t' then ['\\', 't']
  else if c = '\r' then ['\\', 'r']
  else if c = '\x00' then ['\\', '0']
  else if isExtending c || !isPrintable c then ['\\', 'u', '\x7b'] ++ hexCode c ++ ['\x7d']
  else [c]

/-- The text between double quotes, with escapes. -/
def quoted (s : String) : String :=
  String.ofList ('"' :: (s.toList.flatMap quoteChar ++ ['"']))

end CudaToHip.Text
