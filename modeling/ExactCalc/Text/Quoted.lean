import ExactCalc.Text.Blank
/-!
# Quoted text

The quoted form of a text, as the journal writes it: on one line, between quotation marks, every blank but the plain
space spelled out.
-/
namespace ExactCalc

namespace Quoted

/-- How one character is written.  Tab, line feed and carriage return have short forms; any other blank but the plain
space is written by its code point, in lower-case hexadecimal without leading zeros. -/
def escape (c : Char) : List Char :=
  if c = '"' then ['\\', '"']
  else if c = '\\' then ['\\', '\\']
  else if c = '\t' then ['\\', 't']
  else if c = '\n' then ['\\', 'n']
  else if c = '\r' then ['\\', 'r']
  else if isBlank c && c != ' ' then ['\\', 'u', '\x7b'] ++ Nat.toDigits 16 c.toNat ++ ['\x7d']
  else [c]

def encode (cs : List Char) : List Char :=
  '"' :: cs.flatMap escape ++ ['"']

end Quoted

/-- A text between quotation marks. -/
def quote (text : String) : String :=
  String.ofList (Quoted.encode text.toList)

end ExactCalc
