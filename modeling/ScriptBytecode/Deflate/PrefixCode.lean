/-!
# Canonical prefix codes

A prefix code is given by the code length of every symbol.  Codes of one length are consecutive, in
the order of the symbols, and follow those of the shorter lengths.
-/

namespace ScriptBytecode
namespace Deflate

/-- A canonical prefix code: the number of codes of each length from one on, and the symbols in the
order of their codes. -/
structure PrefixCode where
  counts : List Nat
  symbols : Array Nat
deriving DecidableEq, Repr

namespace PrefixCode

/-- Greatest code length. -/
def maxLength : Nat := 15

/-- The symbols whose code has a given length, in order. -/
def symbolsOfLength (lengths : List Nat) (length : Nat) : List Nat :=
  (lengths.zipIdx.filter fun (symbolLength, _) => symbolLength == length).map Prod.snd

/-- The share of all codes that codes of the given counts take, in units of the longest code. -/
def share : (counts : List Nat) → (unit : Nat) → Nat
  | [], _ => 0
  | count :: rest, unit => count * unit + share rest (unit / 2)

/-- The code with the given lengths, zero for symbols without a code.  The codes have to fill the
whole space, unless there are none or there is a single one of one bit. -/
def ofLengths? (lengths : List Nat) : Option PrefixCode :=
  let groups := (List.range' 1 maxLength).map (symbolsOfLength lengths)
  let counts := groups.map List.length
  let used := lengths.filter (0 < ·)
  if share counts (1 <<< (maxLength - 1)) = 1 <<< maxLength ∨ used = [] ∨ used = [1] then
    some ⟨counts, groups.flatten.toArray⟩
  else none

/-- Reads a symbol bit by bit.  At every length, `code` is what was read, `first` the first code of
that length and `index` the position of its symbol. -/
def readFrom (code : PrefixCode) (readBit? : Nat → Option (Nat × Nat)) :
    (counts : List Nat) → (position value first index : Nat) → Option (Nat × Nat)
  | [], _, _, _, _ => none
  | count :: rest, position, value, first, index =>
    match readBit? position with
    | none => none
    | some (bit, position) =>
      let value := 2 * value + bit
      if value < first + count then
        (code.symbols[index + (value - first)]?).map fun symbol => (symbol, position)
      else readFrom code readBit? rest position value (2 * (first + count)) (index + count)

/-- Reads a symbol at a position and answers it with the position after it. -/
def read? (code : PrefixCode) (readBit? : Nat → Option (Nat × Nat)) (position : Nat) :
    Option (Nat × Nat) :=
  code.readFrom readBit? code.counts position 0 0 0

end PrefixCode
end Deflate
end ScriptBytecode
