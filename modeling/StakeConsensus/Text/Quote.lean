import StakeConsensus.Text.Unprintable

/-!
# Quoted characters and strings

Text that comes from outside is quoted in messages: the delimiter and the
backslash are escaped, and a character that would not show is written as its
code point. A single quote is escaped between single quotes only, and a double
quote between double quotes only.
-/

namespace StakeConsensus.Quote

def hexDigits (n : Nat) : String := String.ofList (Nat.toDigits 16 n)

/-- One character between `delimiter`s. -/
def escape (delimiter c : Char) : String :=
  if c = '\x00' then "\\0"
  else if c = '\t' then "\\t"
  else if c = '\r' then "\\r"
  else if c = '\n' then "\\n"
  else if c = '\\' || c = delimiter then String.ofList ['\\', c]
  else if isUnprintable c then "\\u\x7b" ++ hexDigits c.toNat ++ "\x7d"
  else c.toString

def char (c : Char) : String := "'" ++ escape '\'' c ++ "'"

def string (s : String) : String :=
  "\"" ++ String.join (s.toList.map (escape '"')) ++ "\""

end StakeConsensus.Quote
