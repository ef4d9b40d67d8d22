import ChoiceGraph.Number.Double

/-! # The shortest decimal of a double

A finite double stands for an interval of reals that round to it. Its shortest decimal is the
one with the fewest digits in that interval, the nearest to the double among those, the larger
one of two equally near. The text is positional from 1e-4 up to 1e16 with at least one decimal,
and has an exponent outside that range.
-/
namespace ChoiceGraph.Double

/-- A positive double times a power of two, as whole numbers: the value and the two ends of its
rounding interval share the factor `2 ^ twos`. -/
structure Interval where
  low : Nat
  value : Nat
  high : Nat
  twos : Int
  /-- The ends round to the value too. -/
  closed : Bool

/-- The interval of a finite non-zero double, its sign left out. -/
def interval (x : Double) : Interval :=
  let fraction := x.magnitude % 0x10000000000000
  let exponent := x.magnitude / 0x10000000000000
  let mantissa := if exponent = 0 then fraction else fraction + 0x10000000000000
  -- Below a power of two the grid of doubles is twice as fine.
  let below := if fraction = 0 ∧ 1 < exponent then 1 else 2
  { low := 4 * mantissa - below
    value := 4 * mantissa
    high := 4 * mantissa + 2
    twos := ((max exponent 1 : Nat) : Int) - 1077
    closed := mantissa % 2 = 0 }

/-- `m * 2 ^ twos / 10 ^ tens` as a fraction. -/
def scaled (m : Nat) (twos tens : Int) : Nat × Nat :=
  (m * Nat.pow 2 twos.toNat * Nat.pow 10 (-tens).toNat,
    Nat.pow 2 (-twos).toNat * Nat.pow 10 tens.toNat)

/-- The power of ten just above a positive value: it has that many digits before the point. -/
def decimalExponent (i : Interval) : Int :=
  let (num, den) := scaled i.value i.twos (-350)
  ((toString (num / den)).length : Int) - 350

/-- The nearest whole multiple of `10 ^ tens` in the interval, of two equally near the larger. -/
def gridPoint? (i : Interval) (tens : Int) : Option Nat :=
  let (num, den) := scaled i.value i.twos tens
  let low := (scaled i.low i.twos tens).1
  let high := (scaled i.high i.twos tens).1
  let down := num / den
  let downHit := if i.closed then low ≤ down * den else low < down * den
  let upHit := if i.closed then (down + 1) * den ≤ high else (down + 1) * den < high
  match decide downHit, decide upHit with
  | true, true => some (if den ≤ 2 * (num % den) then down + 1 else down)
  | true, false => some down
  | false, true => some (down + 1)
  | false, false => none

/-- The first grid with a point in the interval, from `k` digits on: the point and its power of
ten. Seventeen digits always suffice. -/
def shortestFrom (i : Interval) (exponent : Int) : Nat → Nat → Nat × Int
  | 0, k => ((gridPoint? i (exponent - k)).getD 0, exponent - k)
  | n + 1, k =>
    match gridPoint? i (exponent - k) with
    | some digits => (digits, exponent - k)
    | none => shortestFrom i exponent n (k + 1)

/-- The digits of the shortest decimal, without zeros at the end, and the power of ten of a point
before the first of them. -/
def shortest (x : Double) : String × Int :=
  let i := x.interval
  let (digits, tens) := shortestFrom i (decimalExponent i) 16 1
  let text := toString digits
  let kept := (text.toList.reverse.dropWhile (· == '0')).reverse
  (String.ofList kept, tens + text.length)

def positional (digits : String) (exponent : Int) : String :=
  let zeros (n : Nat) : String := String.ofList (List.replicate n '0')
  let n := digits.length
  if exponent ≤ 0 then "0." ++ zeros (-exponent).toNat ++ digits
  else if n ≤ exponent.toNat then digits ++ zeros (exponent.toNat - n) ++ ".0"
  else
    String.ofList (digits.toList.take exponent.toNat) ++ "." ++
      String.ofList (digits.toList.drop exponent.toNat)

def scientific (digits : String) (exponent : Int) : String :=
  let rest := digits.toList.drop 1
  String.ofList (digits.toList.take 1) ++ (if rest.isEmpty then "" else "." ++ String.ofList rest) ++
    "e" ++ toString (exponent - 1)

/-- The bit patterns of the values 1e-4 and 1e16, between which the text is positional. -/
def positionalFrom : Nat := 0x3f1a36e2eb1c432d
def positionalBelow : Nat := 0x4341c37937e08000

/-- The text of a double. -/
def text (x : Double) : String :=
  if x.isNaN then "NaN"
  else
    let sign := if x.isNegative then "-" else ""
    if x.magnitude = infiniteMagnitude then sign ++ "inf"
    else if x.isZero then sign ++ "0.0"
    else
      let (digits, exponent) := x.shortest
      if positionalFrom ≤ x.magnitude ∧ x.magnitude < positionalBelow then
        sign ++ positional digits exponent
      else
        sign ++ scientific digits exponent

end ChoiceGraph.Double
