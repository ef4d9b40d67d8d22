import ChoiceGraph.Text.Unprintable

/-! # Quoted characters and strings

A quoted text stands between quotes of one kind. The quote itself, the backslash, tab, the two
line ends and NUL have short escapes; a character without a visible form of its own is given by
its code point in hexadecimal.
-/
namespace ChoiceGraph.Text

def codePointEscape (c : Char) : String :=
  "\\u\x7b" ++ String.ofList (Nat.toDigits 16 c.toNat) ++ "\x7d"

/-- How `c` is written between two `quote`s. -/
def escaped (quote c : Char) : String :=
  if c = '\x00' then "\\0"
  else if c = '\t' then "\\t"
  else if c = '\r' then "\\r"
  else if c = '\n' then "\\n"
  else if c = '\\' ∨ c = quote then String.ofList ['\\', c]
  else if isCombining c || isUnprintable c then codePointEscape c
  else String.singleton c

def quotedChar (c : Char) : String := "'" ++ escaped '\'' c ++ "'"

def quotedString (s : String) : String :=
  "\"" ++ String.join (s.toList.map (escaped '"')) ++ "\""

end ChoiceGraph.Text
