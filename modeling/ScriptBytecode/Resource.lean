import ScriptBytecode.Deflate.Inflate
import ScriptBytecode.Deflate.Stored
import ScriptBytecode.Error

/-!
# Resource files

A script is stored in a resource file: a header of four words and the deflated system segment,
which may be encrypted.  The header gives the size of the segment as a number of pages of several
sizes, packed into flags.  A raw resource file is the segment itself.
-/

namespace ScriptBytecode
namespace Resource

/-- The first word of a resource file. -/
def magic : UInt32 := 0x37435352

/-- Number of bytes of the header. -/
def headerLength : Nat := 16

/-- The version of script resources. -/
def scriptVersion : UInt32 := 16

/-- An integer made of `width` bits of the flags from a position on. -/
def flagField (flags : UInt32) (position width : Nat) : Nat :=
  (flags.toNat >>> position) % (1 <<< width)

/-- Number of bytes that page flags describe: counts of pages of nine sizes, each twice the one
before, in units of a base size. -/
def flagsSize (flags : UInt32) : Nat :=
  let pages :=
    flagField flags 27 1 + 2 * flagField flags 26 1 + 4 * flagField flags 25 1 +
      8 * flagField flags 24 1 + 16 * flagField flags 17 7 + 32 * flagField flags 11 6 +
      64 * flagField flags 7 4 + 128 * flagField flags 5 2 + 256 * flagField flags 4 1
  (0x200 <<< flagField flags 0 4) * pages

/-- Flags of a single page that holds `size` bytes: the smallest one of the largest kind. -/
def singlePageFlags (size : Nat) : Except Error UInt32 :=
  if size = 0 then .ok 0
  else
    match (List.range 16).find? fun shift => size ≤ 0x20000 <<< shift with
    | some shift => .ok (UInt32.ofNat (16 + shift))
    | none => .error (.resource (.tooLarge size))

/-- An encryption of resource contents, which may depend on the name and size of the file. -/
structure Cipher where
  decrypt : Bytes → (name : String) → (size : Nat) → Except Error Bytes
  encrypt : Bytes → (name : String) → (size : Nat) → Except Error Bytes

/-- A compression of resource contents.  Contents that were not deflated may fail to be inflated. -/
structure Compression where
  deflate : Bytes → Bytes := Deflate.store
  inflate? : Bytes → Option Bytes := Deflate.inflate?

/-- How a resource file is packed. -/
structure Packing where
  version : UInt32 := scriptVersion
  /-- The name of the file, without which no cipher is applied. -/
  fileName : Option String := none
  cipher : Option Cipher := none
  compression : Compression := {}

/-- The form of a resource file. -/
inductive Codec where
  /-- The system segment as it is. -/
  | raw
  /-- A header and the deflated segment. -/
  | packed (packing : Packing)

namespace Packing

/-- The cipher and the file name, if both are given. -/
def keyed? (packing : Packing) : Option (Cipher × String) := do
  return (← packing.cipher, ← packing.fileName)

/-- Inflates contents; if that fails and there is a cipher, decrypts them first. -/
def inflatePayload (packing : Packing) (payload : Bytes) (fileSize : Nat) : Except Error Bytes :=
  match packing.compression.inflate? payload, packing.keyed? with
  | some inflated, _ => .ok inflated
  | none, some (cipher, name) => do
    let decrypted ← cipher.decrypt payload name fileSize
    match packing.compression.inflate? decrypted with
    | some inflated => return inflated
    | none => throw (.resource .decompression)
  | none, none => .error (.resource .decompression)

/-- The system segment of a resource file. -/
def unpack (packing : Packing) (file : Bytes) : Except Error Bytes :=
  match Bytes.uint32At? file 0, Bytes.uint32At? file 4, Bytes.uint32At? file 8,
      Bytes.uint32At? file 12 with
  | some fileMagic, some version, some flags, some _ =>
    if fileMagic ≠ magic then .error (.resource (.badMagic fileMagic))
    else if version ≠ packing.version then
      .error (.resource (.versionMismatch version packing.version))
    else do
      let payload := file.extract headerLength file.size
      let inflated ← packing.inflatePayload payload file.size
      return inflated.extract 0 (flagsSize (flags &&& 0x0FFFFFFF))
  | _, _, _, _ => .error (.resource .shortFile)

/-- The header of a resource file with the given flags. -/
def header (packing : Packing) (flags : UInt32) : Bytes :=
  let systemVersion := packing.version >>> 4 &&& 0xF
  let graphicsVersion := packing.version &&& 0xF
  (Bytes.ofUInt32 magic ++ Bytes.ofUInt32 packing.version ++
    Bytes.ofUInt32 (flags ||| systemVersion <<< 28) ++
    Bytes.ofUInt32 (graphicsVersion <<< 28)).toArray

/-- The resource file of a system segment, which is extended with zeros to the size of its page. -/
def pack (packing : Packing) (segment : Bytes) : Except Error Bytes := do
  let flags ← singlePageFlags segment.size
  let padded := segment ++ Array.replicate (flagsSize flags - segment.size) 0
  let deflated := packing.compression.deflate padded
  let payload ←
    match packing.keyed? with
    | some (cipher, name) => cipher.encrypt deflated name (deflated.size + headerLength)
    | none => pure deflated
  return packing.header flags ++ payload

end Packing

namespace Codec

/-- The system segment of a file. -/
def unpack : Codec → Bytes → Except Error Bytes
  | .raw, file => .ok file
  | .packed packing, file => packing.unpack file

/-- The file of a system segment. -/
def pack : Codec → Bytes → Except Error Bytes
  | .raw, segment => .ok segment
  | .packed packing, segment => packing.pack segment

end Codec
end Resource
end ScriptBytecode
