/-! # Reading a count from text

Blanks around the digits are dropped, one plus sign is allowed before them, and the value must
fit 64 bits. Blank is the Unicode property `White_Space`, digits are the ASCII ones.
-/
namespace ChoiceGraph.Text

/-- The Unicode property `White_Space`. -/
def isBlank (c : Char) : Bool :=
  let n := c.toNat
  (9 ≤ n && n ≤ 13) || n == 0x20 || n == 0x85 || n == 0xa0 || n == 0x1680 ||
    (0x2000 ≤ n && n ≤ 0x200a) || n == 0x2028 || n == 0x2029 || n == 0x202f ||
    n == 0x205f || n == 0x3000

def trimBlanks (cs : List Char) : List Char :=
  ((cs.dropWhile isBlank).reverse.dropWhile isBlank).reverse

/-- The value of a digit string read after `acc`; `none` at the first character that is no digit. -/
def digitsValue (acc : Nat) : List Char → Option Nat
  | [] => some acc
  | c :: cs => if c.isDigit then digitsValue (acc * 10 + (c.toNat - 48)) cs else none

/-- Digits after an optional plus sign; a sign alone or nothing at all is no count. -/
def unsigned? (cs : List Char) : Option Nat :=
  match (if cs.head? = some '+' then cs.tail else cs) with
  | [] => none
  | c :: cs => digitsValue 0 (c :: cs)

def count? (text : String) : Option Nat :=
  (unsigned? (trimBlanks text.toList)).filter (· < UInt64.size)

end ChoiceGraph.Text
