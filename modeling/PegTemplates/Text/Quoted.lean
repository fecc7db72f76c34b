import PegTemplates.Text.Hidden

/-!
# Quoted text

A text in double quotes, in which quotes, backslashes and everything that would
not show are escaped.
-/

namespace PegTemplates.Text

/-- Digits of a character code in base sixteen. -/
def hexCode (c : Char) : String := String.ofList (Nat.toDigits 16 c.toNat)

/-- Quoted form of one character. -/
def quotedChar (c : Char) : String :=
  if c = '\x00' then "\\0"
  else if c = '\t' then "\\t"
  else if c = '\n' then "\\n"
  else if c = '\r' then "\\r"
  else if c = '"' then "\\\""
  else if c = '\\' then "\\\\"
  else if isHidden c then "\\u\x7b" ++ hexCode c ++ "\x7d"
  else String.singleton c

/-- Quoted form of a text. -/
def quoted (text : String) : String := "\"" ++ String.join (text.toList.map quotedChar) ++ "\""

end PegTemplates.Text
