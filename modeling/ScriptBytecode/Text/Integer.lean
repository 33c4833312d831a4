import ScriptBytecode.Text.Blank

/-!
# Integers in text

Integers are written in decimal, or in hexadecimal after `0x` or `0X`, with blanks around them if
one likes.  A sign may stand before the digits, and a minus sign also before all the rest, where it
negates the integer that the rest stands for, as an integer of 64 bits.
-/

namespace ScriptBytecode
namespace Text

/-- The value of a decimal or hexadecimal digit in either case. -/
def digitValue? (char : Char) : Option Nat :=
  if '0' ≤ char ∧ char ≤ '9' then some (char.toNat - '0'.toNat)
  else if 'a' ≤ char ∧ char ≤ 'f' then some (char.toNat - 'a'.toNat + 10)
  else if 'A' ≤ char ∧ char ≤ 'F' then some (char.toNat - 'A'.toNat + 10)
  else none

/-- The value of the digits of a base after digits with the value `value`. -/
def continueDigits? (base : Nat) : (value : Nat) → List Char → Option Nat
  | value, [] => some value
  | value, char :: rest =>
    match digitValue? char with
    | some digit => if digit < base then continueDigits? base (base * value + digit) rest else none
    | none => none

/-- The value of one or more digits of a base. -/
def digits? (base : Nat) : List Char → Option Nat
  | [] => none
  | chars => continueDigits? base 0 chars

/-- A value of 64 bits with a sign: digits after one sign at most. -/
def signed64? (base : Nat) (chars : List Char) : Option Int :=
  let value : Option Int :=
    match chars with
    | '-' :: digits => (digits? base digits).map fun magnitude => -(magnitude : Int)
    | '+' :: digits => (digits? base digits).map Int.ofNat
    | digits => (digits? base digits).map Int.ofNat
  value.filter fun value => -0x8000000000000000 ≤ value ∧ value < 0x8000000000000000

/-- A value of 64 bits without a sign: digits after one plus sign at most. -/
def unsigned64? (base : Nat) (chars : List Char) : Option UInt64 :=
  let value : Option Nat :=
    match chars with
    | '+' :: digits => digits? base digits
    | digits => digits? base digits
  (value.filter (· < 0x10000000000000000)).map UInt64.ofNat

/-- The base of a numeral and what follows the mark of the base. -/
def splitBase : List Char → Nat × List Char
  | '0' :: 'x' :: digits => (16, digits)
  | '0' :: 'X' :: digits => (16, digits)
  | digits => (10, digits)

/-- The integer that a numeral with its own sign stands for. -/
def numeral? (chars : List Char) : Option Int :=
  let (base, digits) := splitBase chars
  signed64? base digits

/-- The negative of a value of 64 bits with a sign.  The least value is its own negative. -/
def negate64 (value : Int) : Int :=
  (-value).bmod 0x10000000000000000

/-- The integer that a text stands for. -/
def integer? (text : String) : Option Int :=
  match (trim text).toList with
  | '-' :: rest => (numeral? rest).map negate64
  | chars => numeral? chars

/-- The 64-bit word that a text stands for. -/
def word? (text : String) : Option UInt64 :=
  let (base, digits) := splitBase (trim text).toList
  unsigned64? base digits

end Text
end ScriptBytecode
