import ScriptBytecode.Binary32.Basic

/-!
# Shortest decimal text

A finite number is written with the fewest decimal digits that read back to the same number; of
two such decimals the nearer one is taken, and the larger one if they are equally near.  The
search goes through the decimal grids `10 ^ exponent` from coarse to fine and tests on each grid
the two neighbours of the number, in exact integer arithmetic.
-/

namespace ScriptBytecode
namespace Binary32

/-- A non-negative decimal: an integer times a power of ten. -/
structure Decimal where
  digits : Nat
  exponent : Int
deriving DecidableEq, Repr

/-- The reals that round to a positive finite number, in units of `2 ^ -151`.  The ends belong to
the interval when the significand is even. -/
structure RoundingInterval where
  low : Nat
  value : Nat
  high : Nat
  closed : Bool

/-- The rounding interval of a positive finite number.  The gap below a power of two is half as
wide as the gap above it, except at the bottom of the range. -/
def roundingInterval (number : Binary32) : RoundingInterval :=
  let significand := number.significand
  let unit := 1 <<< number.scale
  let below := if significand = 0x800000 ∧ 0 < number.scale then 1 else 2
  { low := (4 * significand - below) * unit
    value := 4 * significand * unit
    high := (4 * significand + 2) * unit
    closed := significand % 2 == 0 }

namespace RoundingInterval

/-- A decimal grid in the units of the interval: `numerator / denominator` units per step. -/
def gridStep (exponent : Int) : Nat × Nat :=
  (Nat.pow 10 exponent.toNat <<< 151, Nat.pow 10 (-exponent).toNat)

/-- Whether `digits` steps of a grid lie in the interval. -/
def contains (interval : RoundingInterval) (exponent : Int) (digits : Nat) : Bool :=
  let (step, divisor) := gridStep exponent
  let low := interval.low * divisor
  let high := interval.high * divisor
  let point := digits * step
  if interval.closed then low ≤ point ∧ point ≤ high else low < point ∧ point < high

/-- The decimal of a grid that reads back, if there is one: the nearer neighbour when both do. -/
def onGrid? (interval : RoundingInterval) (exponent : Int) : Option Decimal :=
  let (step, divisor) := gridStep exponent
  let scaled := interval.value * divisor
  let floor := scaled / step
  match interval.contains exponent floor, interval.contains exponent (floor + 1) with
  | true, true => some ⟨if 2 * (scaled % step) < step then floor else floor + 1, exponent⟩
  | true, false => some ⟨floor, exponent⟩
  | false, true => some ⟨floor + 1, exponent⟩
  | false, false => none

/-- The first grid with a decimal that reads back, from `exponent` downwards. -/
def firstOnGrid (interval : RoundingInterval) : (steps : Nat) → (exponent : Int) → Decimal
  | 0, exponent => ⟨interval.value, exponent⟩
  | steps + 1, exponent =>
    match interval.onGrid? exponent with
    | some decimal => decimal
    | none => firstOnGrid interval steps (exponent - 1)

/-- An exponent whose grid is coarser than the interval: the decimal logarithm of the number,
estimated from its binary one, and two steps up. -/
def coarseExponent (interval : RoundingInterval) : Int :=
  ((interval.value.log2 : Int) - 151) * 30103 / 100000 + 2

end RoundingInterval

/-- The shortest decimal that reads back to a positive finite number. -/
def shortest (number : Binary32) : Decimal :=
  let interval := number.roundingInterval
  interval.firstOnGrid 32 interval.coarseExponent

/-- How decimals are laid out: positional notation for point positions in a range, with at least
one digit on either side of the point, and a bare exponent outside of it. -/
structure NumberFormat where
  /-- The least decimal exponent of the first digit that is written positionally. -/
  leastPositional : Int
  /-- The decimal exponents of the first digit from here on are not written positionally. -/
  endPositional : Int
  exponentMark : String
  nanText : String
  infinityText : String

/-- Lays out the digits of a positive decimal. -/
def NumberFormat.layout (format : NumberFormat) (decimal : Decimal) : String :=
  let digits := Nat.toDigits 10 decimal.digits
  let count := digits.length
  let firstExponent : Int := decimal.exponent + count - 1
  if firstExponent < format.leastPositional ∨ format.endPositional ≤ firstExponent then
    let head := digits.take 1
    let tail := digits.drop 1
    let point := if tail.isEmpty then [] else '.' :: tail
    String.ofList (head ++ point) ++ format.exponentMark ++ toString firstExponent
  else if firstExponent < 0 then
    String.ofList ('0' :: '.' :: List.replicate (-firstExponent - 1).toNat '0' ++ digits)
  else
    let wholeCount := firstExponent.toNat + 1
    let whole := digits.take wholeCount ++ List.replicate (wholeCount - count) '0'
    let fraction := digits.drop wholeCount
    String.ofList (whole ++ '.' :: if fraction.isEmpty then ['0'] else fraction)

/-- Text of a number in a format. -/
def NumberFormat.write (format : NumberFormat) (number : Binary32) : String :=
  if number.isNaN then format.nanText
  else
    let sign := if number.isNegative then "-" else ""
    if number.isInfinite then sign ++ format.infinityText
    else if number.significand = 0 then sign ++ "0.0"
    else sign ++ format.layout number.shortest

/-- Listings and dumps write numbers positionally from `1e-4` up to below `1e16`. -/
def listingFormat : NumberFormat :=
  { leastPositional := -4
    endPositional := 16
    exponentMark := "e"
    nanText := "NaN"
    infinityText := "inf" }

/-- Text of a number in listings and dumps. -/
def text (number : Binary32) : String :=
  listingFormat.write number

end Binary32
end ScriptBytecode
