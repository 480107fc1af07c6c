/-!
# String literals of Java

How a text is written inside a string literal: quotes, backslashes and the usual control characters
by their one-letter escapes, other control characters by their code in four hexadecimal digits.
-/

namespace ByteLift.StringLiteral

/-- Control characters. -/
def isControl (c : Char) : Bool := c.toNat < 0x20 || (0x7F ≤ c.toNat && c.toNat < 0xA0)

/-- A number in at least four hexadecimal digits. -/
def hex4 (n : Nat) : List Char :=
  let digits := Nat.toDigits 16 n
  List.replicate (4 - digits.length) '0' ++ digits

/-- How a character is written inside a string literal. -/
def escapeChar (c : Char) : List Char :=
  if c = '\\' then ['\\', '\\']
  else if c = '"' then ['\\', '"']
  else if c = '\n' then ['\\', 'n']
  else if c = '\r' then ['\\', 'r']
  else if c = '\t' then ['\\', 't']
  else if c = '\x00' then ['\\', '0']
  else if isControl c then '\\' :: 'u' :: hex4 c.toNat
  else [c]

/-- How a text is written inside a string literal. -/
def escape (s : String) : String := String.ofList (s.toList.flatMap escapeChar)

end ByteLift.StringLiteral
