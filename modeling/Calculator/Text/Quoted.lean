import Calculator.Text.CharClass

/-!
# Quoted text

Double quotes around the text, with a backslash before quotes and
backslashes and an escape for every unprintable character.
-/

namespace Calculator.Text

def escape (c : Char) : List Char :=
  if c = '"' then ['\\', '"']
  else if c = '\\' then ['\\', '\\']
  else if c = '\n' then ['\\', 'n']
  else if c = '\r' then ['\\', 'r']
  else if c = '\t' then ['\\', 't']
  else if c.toNat = 0 then ['\\', '0']
  else if isPrintable c then [c]
  else "\\u\x7b".toList ++ Nat.toDigits 16 c.toNat ++ "\x7d".toList

def quote (text : String) : String := String.ofList ('"' :: text.toList.flatMap escape ++ ['"'])

end Calculator.Text
