/-! # Floored division on 64-bit integers

The quotient rounds toward negative infinity and the remainder takes the sign of the divisor.
Both are undefined for a zero divisor and for the one quotient that leaves the range.
-/
namespace ChoiceGraph.Floored

/-- The truncated quotient of `a` by `b` exists and lies in the range of `Int64`. -/
def Defined (a b : Int64) : Prop :=
  b ≠ 0 ∧ ¬(a = Int64.minValue ∧ b = -1)

instance (a b : Int64) : Decidable (Defined a b) :=
  inferInstanceAs (Decidable (_ ∧ _))

/-- A truncated division rounded the wrong way: the remainder is non-zero and has the other sign. -/
def roundedUp (r b : Int64) : Bool :=
  r != 0 && (decide (r < 0) != decide (b < 0))

def quotient? (a b : Int64) : Option Int64 :=
  if Defined a b then
    some (if roundedUp (a % b) b then a / b - 1 else a / b)
  else
    none

def remainder? (a b : Int64) : Option Int64 :=
  if Defined a b then
    some (if roundedUp (a % b) b then a % b + b else a % b)
  else
    none

end ChoiceGraph.Floored
