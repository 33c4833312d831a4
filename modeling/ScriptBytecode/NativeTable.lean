/-!
# The stored form of the native table

A script stores the hashes of the natives it calls in disguise.  Every hash is rotated by an amount
that depends on its index and on the length of the code; then each byte of the whole table is
combined with the stored byte before it, the first one with the low byte of the code length.
-/

namespace ScriptBytecode
namespace NativeTable

/-- How far the entry at an index is rotated. -/
def rotation (index codeLength : Nat) : UInt64 :=
  UInt64.ofNat ((index + codeLength) % 64)

/-- A word rotated towards its high bits. -/
def rotateLeft (word amount : UInt64) : UInt64 :=
  word <<< amount ||| word >>> (64 - amount)

/-- A word rotated towards its low bits. -/
def rotateRight (word amount : UInt64) : UInt64 :=
  word >>> amount ||| word <<< (64 - amount)

/-- The rotated form of a hash. -/
def encodeHash (hash : UInt64) (index codeLength : Nat) : UInt64 :=
  rotateRight hash (rotation index codeLength)

/-- The hash of a rotated form. -/
def decodeHash (entry : UInt64) (index codeLength : Nat) : UInt64 :=
  rotateLeft entry (rotation index codeLength)

/-- The high byte of a word: the last one stored. -/
def lastByte (word : UInt64) : UInt8 :=
  (word >>> 56).toUInt8

/-- Chains the bytes of a word: each stored byte is the exclusive or of the carry and of all bytes
up to it. -/
def chainWord (carry : UInt8) (word : UInt64) : UInt64 :=
  let pairs := word ^^^ word <<< 8
  let quads := pairs ^^^ pairs <<< 16
  let octets := quads ^^^ quads <<< 32
  octets ^^^ carry.toUInt64 * 0x0101010101010101

/-- Undoes `chainWord`: each byte is combined with the stored byte before it. -/
def unchainWord (carry : UInt8) (stored : UInt64) : UInt64 :=
  stored ^^^ stored <<< 8 ^^^ carry.toUInt64

/-- Chains the words of a table. -/
def chain (words : Array UInt64) (codeLength : Nat) : Array UInt64 :=
  (words.foldl
    (fun ((stored, carry) : Array UInt64 × UInt8) word =>
      let entry := chainWord carry word
      (stored.push entry, lastByte entry))
    (#[], UInt8.ofNat codeLength)).1

/-- Undoes `chain`. -/
def unchain (entries : Array UInt64) (codeLength : Nat) : Array UInt64 :=
  (entries.foldl
    (fun ((words, carry) : Array UInt64 × UInt8) entry =>
      (words.push (unchainWord carry entry), lastByte entry))
    (#[], UInt8.ofNat codeLength)).1

/-- The stored form of a table of hashes. -/
def encode (hashes : Array UInt64) (codeLength : Nat) : Array UInt64 :=
  chain (hashes.mapIdx fun index hash => encodeHash hash index codeLength) codeLength

/-- The hashes of a stored table. -/
def decode (entries : Array UInt64) (codeLength : Nat) : Array UInt64 :=
  (unchain entries codeLength).mapIdx fun index entry => decodeHash entry index codeLength

end NativeTable
end ScriptBytecode
