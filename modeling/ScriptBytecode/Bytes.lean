/-!
# Bytes and little-endian words

Code, pages, containers and resource files are arrays of bytes.  Words are stored with their low
byte first; each width has a function to its bytes and one back.
-/

namespace ScriptBytecode

/-- A block of bytes. -/
abbrev Bytes := Array UInt8

namespace Bytes

/-- The two bytes of a 16-bit word, low byte first. -/
def ofUInt16 (value : UInt16) : List UInt8 :=
  [value.toUInt8, (value >>> 8).toUInt8]

/-- The low three bytes of a word, low byte first. -/
def ofUInt24 (value : UInt32) : List UInt8 :=
  [value.toUInt8, (value >>> 8).toUInt8, (value >>> 16).toUInt8]

/-- The four bytes of a 32-bit word, low byte first. -/
def ofUInt32 (value : UInt32) : List UInt8 :=
  [value.toUInt8, (value >>> 8).toUInt8, (value >>> 16).toUInt8, (value >>> 24).toUInt8]

/-- The eight bytes of a 64-bit word, low byte first. -/
def ofUInt64 (value : UInt64) : List UInt8 :=
  [value.toUInt8, (value >>> 8).toUInt8, (value >>> 16).toUInt8, (value >>> 24).toUInt8,
    (value >>> 32).toUInt8, (value >>> 40).toUInt8, (value >>> 48).toUInt8,
    (value >>> 56).toUInt8]

/-- The 16-bit word with the given bytes, low byte first. -/
def toUInt16 (byte0 byte1 : UInt8) : UInt16 :=
  byte0.toUInt16 ||| (byte1.toUInt16 <<< 8)

/-- The 24-bit word with the given bytes, low byte first. -/
def toUInt24 (byte0 byte1 byte2 : UInt8) : UInt32 :=
  byte0.toUInt32 ||| (byte1.toUInt32 <<< 8) ||| (byte2.toUInt32 <<< 16)

/-- The 32-bit word with the given bytes, low byte first. -/
def toUInt32 (byte0 byte1 byte2 byte3 : UInt8) : UInt32 :=
  byte0.toUInt32 ||| (byte1.toUInt32 <<< 8) ||| (byte2.toUInt32 <<< 16) |||
    (byte3.toUInt32 <<< 24)

/-- The 64-bit word whose low and high halves are given. -/
def toUInt64 (low high : UInt32) : UInt64 :=
  low.toUInt64 ||| (high.toUInt64 <<< 32)

/-- The 32-bit word at an offset, when all its bytes are there. -/
def uint32At? (bytes : Bytes) (offset : Nat) : Option UInt32 := do
  let byte0 ← bytes[offset]?
  let byte1 ← bytes[offset + 1]?
  let byte2 ← bytes[offset + 2]?
  let byte3 ← bytes[offset + 3]?
  return toUInt32 byte0 byte1 byte2 byte3

/-- The 64-bit word at an offset, when all its bytes are there. -/
def uint64At? (bytes : Bytes) (offset : Nat) : Option UInt64 := do
  let low ← uint32At? bytes offset
  let high ← uint32At? bytes (offset + 4)
  return toUInt64 low high

/-- The bytes of a list of 64-bit words, in order. -/
def ofWords (words : Array UInt64) : Bytes :=
  words.foldl (fun bytes word => bytes ++ ofUInt64 word) #[]

end Bytes
end ScriptBytecode
