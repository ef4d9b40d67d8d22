/-! # Double-precision numbers as bit patterns

A double is its 64 bits. Two relations are defined on them: numeric sameness, where no NaN is
the same as anything and the two zeros are the same, and a total order of all bit patterns, which
tells the zeros and the NaNs apart.
-/
namespace ChoiceGraph

structure Double where
  bits : UInt64
  deriving DecidableEq

namespace Double

def isNegative (x : Double) : Bool := x.bits.toNat ≥ 0x8000000000000000

/-- Exponent and fraction, the sign left out. -/
def magnitude (x : Double) : Nat := x.bits.toNat % 0x8000000000000000

/-- The exponent field is full and the fraction is zero. -/
def infiniteMagnitude : Nat := 0x7ff0000000000000

def isNaN (x : Double) : Bool := x.magnitude > infiniteMagnitude

def isZero (x : Double) : Bool := x.magnitude == 0

/-- Numeric sameness. -/
def same (x y : Double) : Bool :=
  !x.isNaN && !y.isNaN && (x.bits == y.bits || (x.isZero && y.isZero))

/-- The place of a bit pattern in the total order: negative patterns go down from -1, the others
up from 0. -/
def rank (x : Double) : Int :=
  if x.isNegative then -(x.magnitude : Int) - 1 else x.magnitude

end Double

end ChoiceGraph
