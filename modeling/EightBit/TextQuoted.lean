import EightBit.TextHidden

/-!
# Quoted text

A text between double quotes. The quote, the backslash, NUL, tab, newline and carriage return are
written with a backslash and a letter, hidden characters by number in braces, all else as it is.
-/
namespace EightBit.Text

/-- A code point by number, in hexadecimal without padding. -/
def numbered (c : Char) : List Char :=
  ['\x5c', 'u', '\x7b'] ++ Nat.toDigits 16 c.toNat ++ ['\x7d']

def escape (c : Char) : List Char :=
  if c = '\x00' then ['\x5c', '0']
  else if c = '\t' then ['\x5c', 't']
  else if c = '\r' then ['\x5c', 'r']
  else if c = '\n' then ['\x5c', 'n']
  else if c = '\x22' ∨ c = '\x5c' then ['\x5c', c]
  else if isHidden c then numbered c
  else [c]

def quoted (text : String) : String :=
  String.ofList (['\x22'] ++ text.toList.flatMap escape ++ ['\x22'])

end EightBit.Text
