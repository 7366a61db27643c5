/-!
# Quoted text

Text shown inside double quotes, with the characters that would not be seen
written as escapes: a tab is `\t`, a quote is `\"`, a control character
without a letter of its own is its code in braces. All else stands as it is.
-/
namespace IndentAsm.Text

/-- Whether a character is shown by its code: a control character. -/
def isControl (c : Char) : Bool :=
  c.toNat < 0x20 || (0x7f ≤ c.toNat && c.toNat < 0xa0)

def quotedChar (c : Char) : String :=
  if c = '"' then "\\\""
  else if c = '\\' then "\\\\"
  else if c = '\t' then "\\t"
  else if c = '\r' then "\\r"
  else if c = '\n' then "\\n"
  else if c.toNat = 0 then "\\0"
  else if isControl c then "\\u\x7b" ++ String.ofList (Nat.toDigits 16 c.toNat) ++ "\x7d"
  else c.toString

/-- Text between double quotes, with escapes. -/
def quoted (s : String) : String :=
  "\"" ++ String.join (s.toList.map quotedChar) ++ "\""

end IndentAsm.Text
