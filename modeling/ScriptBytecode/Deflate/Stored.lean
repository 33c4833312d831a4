import ScriptBytecode.Bytes

/-!
# Deflating without compression

Data in the deflate format as a row of stored blocks.
-/

namespace ScriptBytecode
namespace Deflate

/-- Greatest number of bytes of a stored block. -/
def maxStored : Nat := 0xFFFF

/-- A stored block. -/
def storedBlock (final : Bool) (content : Bytes) : Bytes :=
  let length := UInt16.ofNat content.size
  ((if final then 1 else 0) :: Bytes.ofUInt16 length ++ Bytes.ofUInt16 (~~~length)).toArray ++
    content

/-- Data as stored blocks, the last of which is final. -/
def store (data : Bytes) : Bytes :=
  let last := (data.size - 1) / maxStored
  (List.range (last + 1)).foldl
    (fun blocks index =>
      blocks ++
        storedBlock (index = last) (data.extract (index * maxStored) ((index + 1) * maxStored)))
    #[]

end Deflate
end ScriptBytecode
