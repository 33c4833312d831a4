import ScriptBytecode.Bytes
import ScriptBytecode.Deflate.PrefixCode

/-!
# Inflating

The decompressor of the deflate format.  The compressed data is a string of bits, the low bit of
each byte first, and a position in it counts bits.  A copy may reach back before the first output
byte; what stands there is zero.
-/

namespace ScriptBytecode
namespace Deflate

/-- The bit at a position, and the position after it. -/
def readBit? (data : Bytes) (position : Nat) : Option (Nat × Nat) :=
  data[position / 8]?.map fun byte => ((byte.toNat >>> (position % 8)) % 2, position + 1)

/-- An integer of `count` bits, the low bit first, and the position after it. -/
def readBits? (data : Bytes) : (count position : Nat) → Option (Nat × Nat)
  | 0, position => some (0, position)
  | count + 1, position => do
    let (bit, position) ← readBit? data position
    let (high, position) ← readBits? data count position
    return (bit + 2 * high, position)

/-- Base length and number of extra bits of the length symbols, from symbol 257 on. -/
def lengthSymbols : Array (Nat × Nat) :=
  #[(3, 0), (4, 0), (5, 0), (6, 0), (7, 0), (8, 0), (9, 0), (10, 0), (11, 1), (13, 1), (15, 1),
    (17, 1), (19, 2), (23, 2), (27, 2), (31, 2), (35, 3), (43, 3), (51, 3), (59, 3), (67, 4),
    (83, 4), (99, 4), (115, 4), (131, 5), (163, 5), (195, 5), (227, 5), (258, 0)]

/-- Base distance and number of extra bits of the distance symbols. -/
def distanceSymbols : Array (Nat × Nat) :=
  #[(1, 0), (2, 0), (3, 0), (4, 0), (5, 1), (7, 1), (9, 2), (13, 2), (17, 3), (25, 3), (33, 4),
    (49, 4), (65, 5), (97, 5), (129, 6), (193, 6), (257, 7), (385, 7), (513, 8), (769, 8),
    (1025, 9), (1537, 9), (2049, 10), (3073, 10), (4097, 11), (6145, 11), (8193, 12),
    (12289, 12), (16385, 13), (24577, 13)]

/-- The value of a symbol of a table: its base plus its extra bits. -/
def readExtra? (data : Bytes) (table : Array (Nat × Nat)) (symbol position : Nat) :
    Option (Nat × Nat) := do
  let (base, extraBits) ← table[symbol]?
  let (extra, position) ← readBits? data extraBits position
  return (base + extra, position)

/-- Appends a copy of `length` bytes from `distance` bytes back; the copy may reach into itself. -/
def copyBack (distance : Nat) : (length : Nat) → Bytes → Bytes
  | 0, output => output
  | length + 1, output =>
    let byte := if distance ≤ output.size then (output[output.size - distance]?).getD 0 else 0
    copyBack distance length (output.push byte)

/-- The symbol that ends a block. -/
def endOfBlock : Nat := 256

/-- Inflates the symbols of a block up to its end.  Every symbol takes at least one bit, so as many
steps as there are bits are enough. -/
def inflateSymbols (data : Bytes) (literals distances : PrefixCode) :
    (steps position : Nat) → Bytes → Option (Nat × Bytes)
  | 0, _, _ => none
  | steps + 1, position, output =>
    match literals.read? (readBit? data) position with
    | none => none
    | some (symbol, position) =>
      if symbol < endOfBlock then
        inflateSymbols data literals distances steps position (output.push (UInt8.ofNat symbol))
      else if symbol = endOfBlock then some (position, output)
      else
        match readExtra? data lengthSymbols (symbol - 257) position with
        | none => none
        | some (length, position) =>
          match distances.read? (readBit? data) position with
          | none => none
          | some (distanceSymbol, position) =>
            match readExtra? data distanceSymbols distanceSymbol position with
            | none => none
            | some (distance, position) =>
              inflateSymbols data literals distances steps position
                (copyBack distance length output)

/-- Inflates a stored block: it starts at the next byte with its length and the complement. -/
def inflateStored (data : Bytes) (position : Nat) (output : Bytes) : Option (Nat × Bytes) := do
  let start := (position + 7) / 8
  let (length, _) ← readBits? data 16 (8 * start)
  let (complement, _) ← readBits? data 16 (8 * (start + 2))
  let stop := start + 4 + length
  if length + complement = 0xFFFF ∧ stop ≤ data.size then
    return (8 * stop, output ++ data.extract (start + 4) stop)
  else none

/-- The code lengths of the literals and lengths of a block with the fixed codes. -/
def fixedLiteralLengths : List Nat :=
  List.replicate 144 8 ++ List.replicate 112 9 ++ List.replicate 24 7 ++ List.replicate 8 8

/-- The code lengths of the distances of a block with the fixed codes. -/
def fixedDistanceLengths : List Nat :=
  List.replicate 32 5

/-- The order in which the lengths of the code length code are given. -/
def codeLengthOrder : List Nat :=
  [16, 17, 18, 0, 8, 7, 9, 6, 10, 5, 11, 4, 12, 3, 13, 2, 14, 1, 15]

/-- Reads `count` lengths of three bits each. -/
def readShortLengths? (data : Bytes) : (count position : Nat) → Option (List Nat × Nat)
  | 0, position => some ([], position)
  | count + 1, position => do
    let (length, position) ← readBits? data 3 position
    let (rest, position) ← readShortLengths? data count position
    return (length :: rest, position)

/-- Reads code lengths, the last one first in `read`, until there are `total` of them.  Symbols up
to 15 are lengths; 16 repeats the length before it, 17 and 18 give runs of zeros.  Every symbol
gives at least one length, so `total` steps are enough. -/
def readCodeLengths? (data : Bytes) (code : PrefixCode) (total : Nat) :
    (steps position : Nat) → (read : List Nat) → Option (List Nat × Nat)
  | 0, position, read => if read.length = total then some (read.reverse, position) else none
  | steps + 1, position, read =>
    if read.length = total then some (read.reverse, position)
    else do
      let (symbol, position) ← code.read? (readBit? data) position
      if symbol ≤ 15 then readCodeLengths? data code total steps position (symbol :: read)
      else if symbol = 16 then
        let previous ← read.head?
        let (extra, position) ← readBits? data 2 position
        readCodeLengths? data code total steps position
          (List.replicate (3 + extra) previous ++ read)
      else
        let (base, extraBits) := if symbol = 17 then (3, 3) else (11, 7)
        let (extra, position) ← readBits? data extraBits position
        readCodeLengths? data code total steps position (List.replicate (base + extra) 0 ++ read)

/-- Reads the two codes of a block that brings its own. -/
def readCodes? (data : Bytes) (position : Nat) : Option (PrefixCode × PrefixCode × Nat) := do
  let (literalBits, position) ← readBits? data 5 position
  let (distanceBits, position) ← readBits? data 5 position
  let (shortBits, position) ← readBits? data 4 position
  let literalCount := literalBits + 257
  let distanceCount := distanceBits + 1
  if 286 < literalCount ∨ 30 < distanceCount then none
  else
    let (shortLengths, position) ← readShortLengths? data (shortBits + 4) position
    let given := codeLengthOrder.zip shortLengths
    let lengths := (List.range 19).map fun symbol => (given.lookup symbol).getD 0
    let lengthCode ← PrefixCode.ofLengths? lengths
    let total := literalCount + distanceCount
    let (codeLengths, position) ← readCodeLengths? data lengthCode total total position []
    let literals ← PrefixCode.ofLengths? (codeLengths.take literalCount)
    let distances ← PrefixCode.ofLengths? (codeLengths.drop literalCount)
    return (literals, distances, position)

/-- Inflates one block of a type. -/
def inflateBlock (data : Bytes) (type position : Nat) (output : Bytes) :
    Option (Nat × Bytes) := do
  match type with
  | 0 => inflateStored data position output
  | 1 =>
    let literals ← PrefixCode.ofLengths? fixedLiteralLengths
    let distances ← PrefixCode.ofLengths? fixedDistanceLengths
    inflateSymbols data literals distances (8 * data.size + 1) position output
  | 2 =>
    let (literals, distances, position) ← readCodes? data position
    inflateSymbols data literals distances (8 * data.size + 1) position output
  | _ => none

/-- Inflates blocks up to the final one.  Every block has a header of three bits. -/
def inflateBlocks (data : Bytes) : (steps position : Nat) → Bytes → Option Bytes
  | 0, _, _ => none
  | steps + 1, position, output =>
    match readBits? data 1 position with
    | none => none
    | some (final, position) =>
      match readBits? data 2 position with
      | none => none
      | some (type, position) =>
        match inflateBlock data type position output with
        | none => none
        | some (position, output) =>
          if final = 1 then some output else inflateBlocks data steps position output

/-- Inflates data; what follows the final block does not count. -/
def inflate? (data : Bytes) : Option Bytes :=
  inflateBlocks data (8 * data.size) 0 #[]

end Deflate
end ScriptBytecode
