import Standstill.Text.Shown

/-!
Quoted text. A string is written between double quotes, with some characters escaped.
-/
namespace Standstill.Quoted

/-- Lower-case hexadecimal digits, at least `width` of them. -/
def hex (width n : Nat) : String :=
  let digits := String.ofList (Nat.toDigits 16 n)
  "".pushn '0' (width - digits.length) ++ digits

/-- In JSON only the quote, the backslash and the control characters below the blank are escaped. -/
def jsonChar (c : Char) : String :=
  if c = '"' then "\\\""
  else if c = '\\' then "\\\\"
  else if c = '\n' then "\\n"
  else if c = '\r' then "\\r"
  else if c = '\t' then "\\t"
  else if c = '\x08' then "\\b"
  else if c = '\x0c' then "\\f"
  else if c.toNat < 0x20 then "\\u" ++ hex 4 c.toNat
  else c.toString

def json (s : String) : String := "\"" ++ String.join (s.toList.map jsonChar) ++ "\""

/-- For a debugging reader every character that does not show is escaped. -/
def debugChar (c : Char) : String :=
  if c = '"' then "\\\""
  else if c = '\\' then "\\\\"
  else if c = '\n' then "\\n"
  else if c = '\r' then "\\r"
  else if c = '\t' then "\\t"
  else if c = '\x00' then "\\0"
  else if c.toNat < 0x20 ∨ c.toNat = 0x7f ∨ !Text.isShown c then
    "\\u\x7b" ++ hex 1 c.toNat ++ "\x7d"
  else c.toString

def debug (s : String) : String := "\"" ++ String.join (s.toList.map debugChar) ++ "\""

end Standstill.Quoted
