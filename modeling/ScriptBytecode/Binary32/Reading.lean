import ScriptBytecode.Binary32.Basic

/-!
# Reading decimal text

A decimal text is read to the nearest number, and to the one with the even significand when two
are equally near.  The text may have a sign, a fraction, an exponent, or be a name of infinity or
of NaN in any case.
-/

namespace ScriptBytecode
namespace Binary32

/-- A quotient rounded to the nearest integer, a half to the even neighbour. -/
def roundQuotient (numerator denominator : Nat) : Nat :=
  let floor := numerator / denominator
  let twice := 2 * (numerator % denominator)
  if twice < denominator then floor
  else if denominator < twice then floor + 1
  else floor + floor % 2

/-- The magnitude bits of the number nearest to a quotient.  Consecutive magnitudes have
consecutive bits, so a significand that rounds up to a power of two carries into the exponent. -/
def magnitudeBits (numerator denominator : Nat) : Nat :=
  let scaled := numerator <<< 149
  let scale := (scaled / denominator).log2 - 23
  scale * 0x800000 + roundQuotient scaled (denominator <<< scale)

/-- The number nearest to a quotient; too large a quotient becomes infinite. -/
def ofQuotient (negative : Bool) (numerator denominator : Nat) : Binary32 :=
  let bits := magnitudeBits numerator denominator
  if 255 * 0x800000 ≤ bits then infinity negative
  else ⟨UInt32.ofNat ((if negative then 0x80000000 else 0) + bits)⟩

/-- The number nearest to `digits * 10 ^ exponent`.  Decimals that are beyond every number or
below half of the least one are settled before any power of ten is formed. -/
def ofDecimal (negative : Bool) (digits : Nat) (exponent : Int) : Binary32 :=
  if digits = 0 then ofFields negative 0 0
  else if 39 ≤ exponent then infinity negative
  else if (digits.log2 : Int) + 1 + 3 * exponent ≤ -150 then ofFields negative 0 0
  else ofQuotient negative (digits * Nat.pow 10 exponent.toNat) (Nat.pow 10 (-exponent).toNat)

/-- The value of a run of decimal digits. -/
def numeral (digits : List Char) : Nat :=
  digits.foldl (fun value digit => 10 * value + (digit.toNat - '0'.toNat)) 0

/-- An optional sign: whether it is a minus, and what follows. -/
def readSign : List Char → Bool × List Char
  | '-' :: rest => (true, rest)
  | '+' :: rest => (false, rest)
  | rest => (false, rest)

/-- An exponent that has reached this does not grow any more. -/
def exponentLimit : Nat := 0x10000

/-- The value of the digits of an exponent.  Digits after the exponent has reached the limit do not
count, so that an exponent of any length stays small. -/
def exponentValue (digits : List Char) : Nat :=
  digits.foldl
    (fun value digit =>
      if value < exponentLimit then 10 * value + (digit.toNat - '0'.toNat) else value) 0

/-- The exponent part of a decimal text, up to the end of the text. -/
def readExponent? : List Char → Option Int
  | [] => some 0
  | mark :: rest =>
    if mark = 'e' ∨ mark = 'E' then
      let (negative, digits) := readSign rest
      if digits.isEmpty ∨ digits.any (!·.isDigit) then none
      else some (if negative then -(exponentValue digits : Int) else exponentValue digits)
    else none

/-- The digits and the decimal exponent of an unsigned decimal text. -/
def readDecimal? (chars : List Char) : Option (Nat × Int) :=
  let (whole, afterWhole) := chars.span Char.isDigit
  let (fraction, rest) :=
    match afterWhole with
    | '.' :: afterPoint => afterPoint.span Char.isDigit
    | other => ([], other)
  if whole.isEmpty ∧ fraction.isEmpty then none
  else
    (readExponent? rest).map fun exponent =>
      (numeral (whole ++ fraction), exponent - fraction.length)

/-- Reads a text as a number. -/
def ofText? (text : String) : Option Binary32 :=
  let (negative, chars) := readSign text.toList
  let name := String.ofList (chars.map Char.toLower)
  if name = "inf" ∨ name = "infinity" then some (infinity negative)
  else if name = "nan" then some (nan negative)
  else (readDecimal? chars).map fun (digits, exponent) => ofDecimal negative digits exponent

end Binary32
end ScriptBytecode
