/-!
# Single-precision numbers

A single-precision number is its 32-bit pattern: a sign bit, eight exponent bits and 23 fraction
bits.  Patterns are compared bit by bit, so the two zeros differ and every NaN equals itself.
-/

namespace ScriptBytecode

/-- A single-precision number, given by its bit pattern. -/
structure Binary32 where
  bits : UInt32
deriving DecidableEq, Repr

namespace Binary32

/-- Whether the sign bit is set. -/
def isNegative (number : Binary32) : Bool :=
  0x80000000 ≤ number.bits.toNat

/-- The eight exponent bits. -/
def exponentField (number : Binary32) : Nat :=
  number.bits.toNat / 0x800000 % 0x100

/-- The 23 fraction bits. -/
def fractionField (number : Binary32) : Nat :=
  number.bits.toNat % 0x800000

/-- Whether the pattern stands for no number. -/
def isNaN (number : Binary32) : Bool :=
  number.exponentField == 255 && number.fractionField != 0

/-- Whether the pattern is one of the two infinities. -/
def isInfinite (number : Binary32) : Bool :=
  number.exponentField == 255 && number.fractionField == 0

/-- The integer significand of a finite number. -/
def significand (number : Binary32) : Nat :=
  if number.exponentField = 0 then number.fractionField else number.fractionField + 0x800000

/-- A finite number is its significand times two to this power, less 149. -/
def scale (number : Binary32) : Nat :=
  number.exponentField - 1

/-- The pattern with the given sign, exponent and fraction fields. -/
def ofFields (negative : Bool) (exponentField fractionField : Nat) : Binary32 :=
  ⟨UInt32.ofNat
    ((if negative then 0x80000000 else 0) + exponentField * 0x800000 + fractionField)⟩

/-- Infinity of the given sign. -/
def infinity (negative : Bool) : Binary32 :=
  ofFields negative 255 0

/-- The quiet NaN of the given sign with no other fraction bit. -/
def nan (negative : Bool) : Binary32 :=
  ofFields negative 255 0x400000

end Binary32
end ScriptBytecode
