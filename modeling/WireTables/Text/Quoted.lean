import WireTables.Text.Hex
import WireTables.Text.Hidden

/-!
# Quoted text

How messages show a text so that every character of it can be seen: in double quotes, with a
backslash before a quote or a backslash, short names for the common controls, and the number of
every other hidden character.
-/

namespace WireTables.Text

/-- One character inside quotes. -/
def quotedChar (c : Char) : String :=
  if c == '"' then "\\\""
  else if c == '\\' then "\\\\"
  else if c == '\n' then "\\n"
  else if c == '\t' then "\\t"
  else if c == '\r' then "\\r"
  else if c.toNat == 0 then "\\0"
  else if isHidden c then "\\u\x7b" ++ hexLower c.toNat ++ "\x7d"
  else c.toString

/-- A text in quotes. -/
def quoted (s : String) : String :=
  "\"" ++ String.join (s.toList.map quotedChar) ++ "\""

/-- A list of texts, each in quotes. -/
def quotedList (items : List String) : String :=
  "[" ++ ", ".intercalate (items.map quoted) ++ "]"

/-- A text that may be missing. -/
def quotedOption : Option String → String
  | none => "None"
  | some s => "Some(" ++ quoted s ++ ")"

end WireTables.Text
