import ByteLift.Text.Extender
import ByteLift.Text.Lowercase
import ByteLift.Text.Unprintable

/-!
# Quoted text

A text between double quotes in which every character that would not show, or would end the text, is
written as an escape: the usual one-letter escapes, or the code point in hexadecimal between braces.
-/

namespace ByteLift.Text

/-- An escape that gives the code point in hexadecimal. -/
def codePointEscape (c : Char) : List Char :=
  '\\' :: 'u' :: '\x7b' :: Nat.toDigits 16 c.toNat ++ ['\x7d']

/-- How a character is written between quotes. -/
def quotedChar (c : Char) : List Char :=
  if c = '\x00' then ['\\', '0']
  else if c = '\t' then ['\\', 't']
  else if c = '\r' then ['\\', 'r']
  else if c = '\n' then ['\\', 'n']
  else if c = '\\' ∨ c = '"' then ['\\', c]
  else if 0x20 ≤ c.toNat ∧ c.toNat < 0x7F then [c]
  else if inRuns extenders c.toNat || inRuns unprintable c.toNat then codePointEscape c
  else [c]

/-- A text between double quotes. -/
def quoted (s : String) : String :=
  String.ofList ('"' :: s.toList.flatMap quotedChar ++ ['"'])

end ByteLift.Text
