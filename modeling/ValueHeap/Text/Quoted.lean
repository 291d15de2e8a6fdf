import ValueHeap.Text.Hex
import ValueHeap.Text.Visible

/-!
# Quoted text

A text or character between quotes on one line. The quote in use, the backslash, NUL, tab, carriage
return and line feed have escapes of their own; any other invisible character is written by its code
point. Nothing that is written is a control character.
-/

namespace ValueHeap.Text

def doubleQuote : Char := '\x22'

def singleQuote : Char := '\x27'

/-- The code point in braces, as an escape. -/
def escapeCode (c : Char) : List Char :=
  ['\\', 'u', '\x7b'] ++ hexDigits c.toNat ++ ['\x7d']

/-- How `c` is written between quotes of the form `quote`. -/
def escapeChar (quote c : Char) : List Char :=
  if c = '\x00' then ['\\', '0']
  else if c = '\t' then ['\\', 't']
  else if c = '\r' then ['\\', 'r']
  else if c = '\n' then ['\\', 'n']
  else if c = '\\' then ['\\', '\\']
  else if c = quote then ['\\', quote]
  else if isVisible c.toNat then [c]
  else escapeCode c

/-- The text between double quotes. -/
def quoteText (s : String) : String :=
  String.ofList (doubleQuote :: s.toList.flatMap (escapeChar doubleQuote) ++ [doubleQuote])

/-- The character between single quotes. -/
def quoteChar (c : Char) : String :=
  String.ofList (singleQuote :: escapeChar singleQuote c ++ [singleQuote])

end ValueHeap.Text
