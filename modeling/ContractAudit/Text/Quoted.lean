import ContractAudit.Text.CharClass

/-!
# Quoted texts

How a text is shown in a message : between quotes, with backslashes before what would
end it or could not be seen. Single quotes are used unless the text holds one and no double
quote.
-/

namespace ContractAudit

/-- A hexadecimal digit; a number past fifteen counts by its remainder. -/
def hexDigit (n : Nat) : Char :=
  "0123456789abcdef".toList[n % 16]?.getD '0'

/-- The last `digits` hexadecimal digits of a number. -/
def hex : Nat → Nat → List Char
  | 0, _ => []
  | digits + 1, n => hex digits (n / 16) ++ [hexDigit n]

/-- How a character is written between the given quotes. -/
def quotedChar (quote c : Char) : List Char :=
  if c == '\\' || c == quote then ['\\', c]
  else if c == '\n' then ['\\', 'n']
  else if c == '\r' then ['\\', 'r']
  else if c == '\t' then ['\\', 't']
  else if isPrintable c then [c]
  else if c.toNat < 0x100 then '\\' :: 'x' :: hex 2 c.toNat
  else if c.toNat < 0x10000 then '\\' :: 'u' :: hex 4 c.toNat
  else '\\' :: 'U' :: hex 8 c.toNat

/-- The quotes put around a text. -/
def quoteFor (cs : List Char) : Char :=
  if cs.contains '\'' && !cs.contains '"' then '"' else '\''

/-- A text between quotes. -/
def quoted (s : String) : String :=
  let cs := s.toList
  let quote := quoteFor cs
  String.ofList (quote :: cs.flatMap (quotedChar quote) ++ [quote])

end ContractAudit
