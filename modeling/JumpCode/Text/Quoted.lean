import JumpCode.Text.Shapeless

/-!
# Quoted text

A quoted text stands between double quotes.  The quote, the backslash and four control characters
are written with a backslash and a letter, other characters without a shape of their own by their
number, and all else as it is.
-/

namespace JumpCode.Text

def quotedChar (c : Char) : List Char :=
  if c = '"' ∨ c = '\\' then ['\\', c]
  else if c = '\x00' then ['\\', '0']
  else if c = '\t' then ['\\', 't']
  else if c = '\r' then ['\\', 'r']
  else if c = '\n' then ['\\', 'n']
  else if isShapeless c then ['\\', 'u', '\x7b'] ++ Nat.toDigits 16 c.toNat ++ ['\x7d']
  else [c]

def quoted (s : String) : String :=
  String.ofList ('"' :: s.toList.flatMap quotedChar ++ ['"'])

end JumpCode.Text
