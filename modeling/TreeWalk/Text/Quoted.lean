/-!
# Quoted strings

A message that shows a string shows it in double quotes, with whatever would not be
visible as itself replaced by an escape: the quote and the backslash, the usual
control characters by a letter, and every other character that is not printable by
its number.  Which characters are printable is a parameter, since it is a matter of
tables.
-/

namespace TreeWalk

namespace Quoted

/-- A character by its number, in lower-case hexadecimal digits. -/
def numbered (c : Char) : List Char :=
  '\\' :: 'u' :: '{' :: (Nat.toDigits 16 c.toNat ++ ['}'])

/-- One character between quotes. -/
def escape (printable : Char → Bool) (c : Char) : List Char :=
  if c = '"' then ['\\', '"']
  else if c = '\\' then ['\\', '\\']
  else if c = '\n' then ['\\', 'n']
  else if c = '\r' then ['\\', 'r']
  else if c = '\t' then ['\\', 't']
  else if c.toNat = 0 then ['\\', '0']
  else if printable c then [c]
  else numbered c

/-- A string in double quotes. -/
def quote (printable : Char → Bool) (s : String) : String :=
  String.ofList ('"' :: s.toList.flatMap (escape printable) ++ ['"'])

end Quoted

end TreeWalk
