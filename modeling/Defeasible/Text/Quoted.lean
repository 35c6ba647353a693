import Defeasible.Text.Printable

/-! Texts between double quotes, as messages show them: a character that would not be visible as
itself is written by its code point. -/

namespace Defeasible.Text

def codePoint (c : Char) : String :=
  "\\u\x7b" ++ String.ofList (Nat.toDigits 16 c.toNat) ++ "\x7d"

def escape (c : Char) : String :=
  if c = '\x00' then "\\0"
  else if c = '\t' then "\\t"
  else if c = '\r' then "\\r"
  else if c = '\n' then "\\n"
  else if c = '"' then "\\\""
  else if c = '\\' then "\\\\"
  else if isPrintable c then c.toString
  else codePoint c

def quote (s : String) : String :=
  "\"" ++ String.join (s.toList.map escape) ++ "\""

end Defeasible.Text
