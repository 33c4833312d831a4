import ScriptBytecode.Text.Utf8

/-!
# Name hashes

Names are identified by a 32-bit hash of their bytes, in which the case of ASCII letters does not
count.
-/

namespace ScriptBytecode

/-- The lower-case form of an ASCII letter; any other byte as it is. -/
def lowerByte (byte : UInt8) : UInt8 :=
  if 0x41 ≤ byte ∧ byte ≤ 0x5A then byte + 0x20 else byte

/-- Mixes a byte into a running hash. -/
def mixByte (hash : UInt32) (byte : UInt8) : UInt32 :=
  let added := hash + (lowerByte byte).toUInt32
  let shifted := added + added <<< 10
  shifted ^^^ shifted >>> 6

/-- The hash of a name: its bytes one at a time, then a last mixing. -/
def nameHash (name : String) : UInt32 :=
  let mixed := (Utf8.encode name).foldl mixByte 0
  let first := mixed + mixed <<< 3
  let second := first ^^^ first >>> 11
  second + second <<< 15

end ScriptBytecode
